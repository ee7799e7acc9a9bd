import BackendStudy.ThreadPool.Model
import Mathlib.Data.List.Nodup

/-!
# The threads of the list

The operations on the list of threads, by what they do to the numbers of the threads: no two
threads of the list have one number (`BackendStudy.ThreadPool.Numbered`), so that a thread is
what its number leads to, and what a single creation of a thread keeps, growing keeps
(`BackendStudy.ThreadPool.activeSomeThread_induct`).
-/

namespace BackendStudy

namespace ThreadPool

variable {α : Type*} {p p' : ThreadPool α} {t : ℕ} {th : Thread α}

theorem mem_setState {state : ThreadState α} :
    th ∈ (p.setState t state).thdList ↔
      ∃ u ∈ p.thdList, (if u.num = t then { u with state := state } else u) = th :=
  List.mem_map

theorem mem_of_thread (h : p.thread t = some th) : th ∈ p.thdList ∧ th.num = t :=
  ⟨List.mem_of_find?_eq_some h, by simpa using List.find?_some h⟩

theorem setFirstToTerminate_eq (n : ℕ) (ts : List (Thread α)) :
    setFirstToTerminate n ts = (ts.take n).map Thread.setToTerminate ++ ts.drop n := by
  induction n generalizing ts with
  | zero => simp [setFirstToTerminate]
  | succ n ih =>
    cases ts with
    | nil => rfl
    | cons t ts =>
      rw [setFirstToTerminate, ih]
      rfl

/-- **The threads of the list are different ones.** -/
structure Numbered (p : ThreadPool α) : Prop where
  nodup : (p.thdList.map Thread.num).Nodup
  created : ∀ th ∈ p.thdList, th.num < p.created

theorem Numbered.eq_of_num (h : Numbered p) {u : Thread α} (hth : th ∈ p.thdList)
    (hu : u ∈ p.thdList) (he : th.num = u.num) : th = u :=
  List.inj_on_of_nodup_map h.nodup hth hu he

/-- A number leads to its thread. -/
theorem Numbered.thread_eq (h : Numbered p) (hth : th ∈ p.thdList) (he : th.num = t) :
    p.thread t = some th := by
  cases hf : p.thread t with
  | none =>
    have hne := List.find?_eq_none.mp hf th hth
    simp [he] at hne
  | some u =>
    obtain ⟨hu, hut⟩ := mem_of_thread hf
    rw [h.eq_of_num hu hth (hut.trans he.symm)]

/-- What keeps the numbers of the threads, and creates none. -/
theorem Numbered.of_map (h : Numbered p)
    (hnum : p'.thdList.map Thread.num = p.thdList.map Thread.num) (hc : p'.created = p.created) :
    Numbered p' := by
  refine ⟨hnum ▸ h.nodup, fun th hth => ?_⟩
  obtain ⟨u, hu, he⟩ := List.mem_map.mp (hnum ▸ List.mem_map_of_mem hth)
  rw [hc, ← he]
  exact h.created u hu

theorem Numbered.setState (h : Numbered p) (state : ThreadState α) :
    Numbered (p.setState t state) := by
  refine h.of_map ?_ rfl
  rw [ThreadPool.setState, List.map_map]
  refine List.map_congr_left fun u _ => ?_
  simp only [Function.comp_apply]
  split_ifs <;> rfl

theorem Numbered.createAThread (h : Numbered p) : Numbered p.createAThread := by
  constructor
  · rw [ThreadPool.createAThread, List.map_append, List.nodup_append]
    refine ⟨h.nodup, List.nodup_singleton _, ?_⟩
    rintro n hn m hm rfl
    obtain ⟨u, hu, rfl⟩ := List.mem_map.mp hn
    obtain ⟨v, hv, he⟩ := List.mem_map.mp hm
    obtain rfl := List.mem_singleton.mp hv
    exact absurd (h.created u hu) (by rw [← he]; exact lt_irrefl _)
  · intro th hth
    rcases List.mem_append.mp hth with hth | hth
    · exact Nat.lt_succ_of_lt (h.created th hth)
    · obtain rfl := List.mem_singleton.mp hth
      exact Nat.lt_succ_self _

theorem nums_terminateSomeThread (p : ThreadPool α) :
    p.terminateSomeThread.1.thdList.map Thread.num = p.thdList.map Thread.num := by
  rw [terminateSomeThread]
  split_ifs
  · simp only [setFirstToTerminate_eq, List.map_append, List.map_map]
    exact List.map_append.symm.trans (congrArg _ (List.take_append_drop _ _))
  · rfl

theorem Numbered.terminateSomeThread (h : Numbered p) : Numbered p.terminateSomeThread.1 := by
  refine h.of_map (nums_terminateSomeThread p) ?_
  rw [ThreadPool.terminateSomeThread]
  split_ifs <;> rfl

theorem Numbered.removeThread (h : Numbered p) : Numbered (p.removeThread t) :=
  ⟨h.nodup.sublist (List.filter_sublist.map _),
    fun th hth => h.created th (List.mem_filter.mp hth).1⟩

/-- What `createAThread` keeps, any number of calls of it keeps. -/
theorem iterate_createAThread {P : ThreadPool α → Prop} (hP : ∀ p, P p → P p.createAThread)
    (h : P p) : ∀ n, P (ThreadPool.createAThread^[n] p)
  | 0 => h
  | n + 1 => by
    rw [Function.iterate_succ_apply']
    exact hP _ (iterate_createAThread hP h n)

theorem activeSomeThread_induct {P : ThreadPool α → Prop} (hP : ∀ p, P p → P p.createAThread)
    (h : P p) : P p.activeSomeThread.1 := by
  rw [ThreadPool.activeSomeThread]
  split_ifs
  · exact iterate_createAThread hP h _
  · exact h

theorem Numbered.iterate_createAThread (h : Numbered p) (n : ℕ) :
    Numbered (ThreadPool.createAThread^[n] p) :=
  ThreadPool.iterate_createAThread (fun _ h => h.createAThread) h n

theorem numbered_new (n : ℤ) : Numbered (new n : ThreadPool α) :=
  ⟨List.nodup_nil, fun _ hth => absurd hth List.not_mem_nil⟩

/-! ### What a step does -/

/-- The ways out of the loop: a marked thread ends, another one sleeps if there are no tasks,
and runs the first one if there are. -/
theorem threadLoop_cases (h : p.thread t = some th) :
    (th.needToTerminate = true ∧ p.threadLoop t = p.removeThread t) ∨
    (th.needToTerminate = false ∧ p.taskList = [] ∧ p.threadLoop t = p.setState t .blocked) ∨
    (th.needToTerminate = false ∧ ∃ task rest, p.taskList = task :: rest ∧
      p.threadLoop t = (({ p with taskList := rest, busyThdNum := p.busyThdNum + 1 } :
        ThreadPool α).setState t (.running task)).activeSomeThread.1) := by
  rw [threadLoop, h]
  simp only
  cases hm : th.needToTerminate with
  | true => exact Or.inl ⟨rfl, rfl⟩
  | false =>
    cases hl : p.taskList with
    | nil => exact Or.inr (Or.inl ⟨rfl, rfl, rfl⟩)
    | cons task rest => exact Or.inr (Or.inr ⟨rfl, task, rest, rfl, rfl⟩)

theorem Numbered.threadLoop (h : Numbered p) : Numbered (p.threadLoop t) := by
  cases hth : p.thread t with
  | none =>
    rw [ThreadPool.threadLoop, hth]
    exact h
  | some th =>
    rcases threadLoop_cases hth with ⟨-, he⟩ | ⟨-, -, he⟩ | ⟨-, task, rest, -, he⟩
    · exact he ▸ h.removeThread
    · exact he ▸ h.setState _
    · have hq : Numbered ({ p with taskList := rest, busyThdNum := p.busyThdNum + 1 } :
          ThreadPool α) := ⟨h.nodup, h.created⟩
      rw [he]
      exact activeSomeThread_induct (fun _ h => h.createAThread) (hq.setState _)

theorem Numbered.endTask (h : Numbered p) : Numbered p.endTask := by
  have hq : Numbered ({ p with busyThdNum := p.busyThdNum - 1 } : ThreadPool α) :=
    ⟨h.nodup, h.created⟩
  exact hq.terminateSomeThread

theorem Numbered.taskDone (h : Numbered p) : Numbered (p.taskDone t) := h.endTask.threadLoop

theorem Numbered.acceptATask (h : Numbered p) {task : α} {waiter : Option ℕ} :
    Numbered (p.acceptATask task waiter) := by
  have hq : Numbered ({ p with taskList := p.taskList ++ [task] } : ThreadPool α) :=
    ⟨h.nodup, h.created⟩
  cases waiter with
  | none => exact hq
  | some w => exact hq.setState _

section

variable [DecidableEq α] {a : Act α}

/-- **What a step is.** -/
theorem step_cases (h : Step p a p') :
    (∃ task waiter, a = .acceptATask task waiter ∧ p.CanNotify waiter ∧
      p' = p.acceptATask task waiter) ∨
    (∃ t th, a = .getMutex t ∧ p.thread t = some th ∧
      (th.state = .started ∨ th.state = .woken) ∧ p' = p.threadLoop t) ∨
    (∃ t th task, a = .taskDone t ∧ p.thread t = some th ∧ th.state = .running task ∧
      p' = p.taskDone t) := by
  cases a with
  | acceptATask task waiter =>
    simp only [Step, step] at h
    split_ifs at h with hw
    exact Or.inl ⟨task, waiter, rfl, hw, (Option.some.inj h).symm⟩
  | getMutex t =>
    simp only [Step, step] at h
    cases hth : p.thread t with
    | none => simp [hth] at h
    -- only a thread that waits for the mutex can get it
    | some th =>
      cases hs : th.state with
      | started =>
        exact Or.inr (Or.inl ⟨t, th, rfl, hth, Or.inl hs, by simpa [hth, hs] using h.symm⟩)
      | woken =>
        exact Or.inr (Or.inl ⟨t, th, rfl, hth, Or.inr hs, by simpa [hth, hs] using h.symm⟩)
      | blocked => simp [hth, hs] at h
      | running task => simp [hth, hs] at h
  | taskDone t =>
    simp only [Step, step] at h
    cases hth : p.thread t with
    | none => simp [hth] at h
    | some th =>
      -- only a thread with a task can be done with it
      cases hs : th.state with
      | running task =>
        exact Or.inr (Or.inr ⟨t, th, task, rfl, hth, hs, by simpa [hth, hs] using h.symm⟩)
      | started => simp [hth, hs] at h
      | woken => simp [hth, hs] at h
      | blocked => simp [hth, hs] at h

theorem Numbered.step (h : Numbered p) (hs : Step p a p') : Numbered p' := by
  rcases step_cases hs with ⟨-, -, -, -, rfl⟩ | ⟨-, -, -, -, -, rfl⟩ | ⟨-, -, -, -, -, -, rfl⟩
  · exact h.acceptATask
  · exact h.threadLoop
  · exact h.taskDone

end

end ThreadPool

end BackendStudy
