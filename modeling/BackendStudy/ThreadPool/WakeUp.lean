import BackendStudy.ThreadPool.Threads

/-!
# Lost wake-ups of the thread pool

A thread that is marked for termination while it waits goes on waiting on the same condition
variable as the others, so that the one notification of a new task may go to it. It then ends,
and passes nothing on.

The marked threads are the first ones of the list, and at least four are not marked
(`BackendStudy.ThreadPool.MarkedFirst`). This makes the notification of a marked thread, at a time
when all others sleep, the only way in which a wake-up is lost
(`BackendStudy.ThreadPool.run_noLostWakeUp_iff`); and that does happen
(`BackendStudy.ThreadPool.not_noLostWakeUp_sample`).
-/

namespace BackendStudy

namespace ThreadPool

variable {α : Type*} {p p' : ThreadPool α} {t : ℕ} {th : Thread α}

/-- **No wake-up is lost**: while tasks are queued, a thread that has not been told to terminate
runs a task, or is on its way to one. -/
def NoLostWakeUp (p : ThreadPool α) : Prop :=
  p.taskList ≠ [] → ∃ th ∈ p.thdList, th.needToTerminate = false ∧ th.state ≠ .blocked

/-- The condition on `acceptATask`: the waiter that is notified has not been told to terminate,
or one that has not is not waiting. -/
def Heeded (p : ThreadPool α) : Act α → Prop
  | .acceptATask _ (some w) =>
    (∃ th ∈ p.thdList, th.num = w ∧ th.needToTerminate = false) ∨
      ∃ th ∈ p.thdList, th.needToTerminate = false ∧ th.state ≠ .blocked
  | _ => True

/-! ### Marked threads -/

/-- **The marked threads of the list** come first and leave `minThdNum` others. -/
def MarkedFirst (p : ThreadPool α) : Prop :=
  ∃ l₁ l₂, p.thdList = l₁ ++ l₂ ∧ (∀ th ∈ l₁, th.needToTerminate = true) ∧
    (∀ th ∈ l₂, th.needToTerminate = false) ∧ minThdNum ≤ l₂.length

/-- The pool has a thread that has not been told to terminate. -/
theorem MarkedFirst.exists_unmarked (h : MarkedFirst p) :
    ∃ th ∈ p.thdList, th.needToTerminate = false := by
  obtain ⟨l₁, l₂, hl, -, h₂, hlen⟩ := h
  cases l₂ with
  | nil => simp [minThdNum] at hlen
  | cons th l₂ => exact ⟨th, by simp [hl], h₂ th List.mem_cons_self⟩

theorem MarkedFirst.setState (h : MarkedFirst p) (state : ThreadState α) :
    MarkedFirst (p.setState t state) := by
  have hfield : ∀ u : Thread α,
      (if u.num = t then { u with state := state } else u).needToTerminate =
        u.needToTerminate := by
    intro u
    split_ifs <;> rfl
  obtain ⟨l₁, l₂, hl, h₁, h₂, hlen⟩ := h
  refine ⟨_, _, (congrArg (List.map _) hl).trans List.map_append, ?_, ?_, by simpa using hlen⟩
  · intro th hth
    obtain ⟨u, hu, rfl⟩ := List.mem_map.mp hth
    rw [hfield]
    exact h₁ u hu
  · intro th hth
    obtain ⟨u, hu, rfl⟩ := List.mem_map.mp hth
    rw [hfield]
    exact h₂ u hu

theorem MarkedFirst.createAThread (h : MarkedFirst p) : MarkedFirst p.createAThread := by
  obtain ⟨l₁, l₂, hl, h₁, h₂, hlen⟩ := h
  refine ⟨l₁, l₂ ++ [⟨p.created, false, .started⟩], ?_, h₁, ?_, ?_⟩
  · rw [ThreadPool.createAThread, hl, List.append_assoc]
  · intro th hth
    rcases List.mem_append.mp hth with hth | hth
    · exact h₂ th hth
    · obtain rfl := List.mem_singleton.mp hth
      rfl
  · rw [List.length_append]
    push_cast
    omega

/-- Marking the first threads of the list, some of which are marked already. -/
theorem MarkedFirst.terminateSomeThread (h : MarkedFirst p) :
    MarkedFirst p.terminateSomeThread.1 := by
  rw [ThreadPool.terminateSomeThread]
  split_ifs
  · obtain ⟨l₁, l₂, hl, h₁, h₂, hlen⟩ := h
    simp only [MarkedFirst, setFirstToTerminate_eq]
    set n := ((p.thdList.length : ℤ) - max ((p.thdList.length / 2 : ℕ) : ℤ) minThdNum).toNat with hn
    have hlength : p.thdList.length = l₁.length + l₂.length := by rw [hl, List.length_append]
    have hmin : minThdNum = 4 := rfl
    have hmark : ∀ ts : List (Thread α), ∀ th ∈ ts.map Thread.setToTerminate,
        th.needToTerminate = true := by
      intro ts th hth
      obtain ⟨u, -, rfl⟩ := List.mem_map.mp hth
      rfl
    by_cases hle : n ≤ l₁.length
    · refine ⟨(l₁.take n).map Thread.setToTerminate ++ l₁.drop n, l₂, ?_, ?_, h₂, hlen⟩
      · rw [hl, List.take_append_of_le_length hle, List.drop_append_of_le_length hle,
          List.append_assoc]
      · intro th hth
        rcases List.mem_append.mp hth with hth | hth
        · exact hmark _ th hth
        · exact h₁ th (List.mem_of_mem_drop hth)
    · refine ⟨_, _, rfl, hmark _, ?_, ?_⟩
      · intro th hth
        rw [hl, List.drop_append, List.drop_of_length_le (by omega), List.nil_append] at hth
        exact h₂ th (List.mem_of_mem_drop hth)
      · rw [List.length_drop]
        omega
  · exact h

theorem MarkedFirst.removeThread (h : MarkedFirst p) (hn : Numbered p) (hth : th ∈ p.thdList)
    (hm : th.needToTerminate = true) : MarkedFirst (p.removeThread th.num) := by
  obtain ⟨l₁, l₂, hl, h₁, h₂, hlen⟩ := h
  have hl₂ : l₂.filter (·.num ≠ th.num) = l₂ := by
    refine List.filter_eq_self.mpr fun u hu => ?_
    have hne : u.num ≠ th.num := by
      intro he
      have heq : u = th := hn.eq_of_num (by simp [hl, hu]) hth he
      exact absurd (heq ▸ h₂ u hu) (by rw [hm]; nofun)
    simpa using hne
  refine ⟨l₁.filter (·.num ≠ th.num), l₂, ?_, ?_, h₂, hlen⟩
  · rw [ThreadPool.removeThread, hl, List.filter_append, hl₂]
  · intro u hu
    exact h₁ u (List.mem_filter.mp hu).1

/-! ### The steps -/

/-- **The invariant of an initialised pool.** -/
structure Inv (p : ThreadPool α) : Prop where
  numbered : Numbered p
  marked : MarkedFirst p

/-- The threads of a pool after `init`. -/
theorem thdList_init (maxThreadNum : ℤ) : (init (new maxThreadNum : ThreadPool α)).thdList =
    [⟨0, false, .started⟩, ⟨1, false, .started⟩, ⟨2, false, .started⟩, ⟨3, false, .started⟩] :=
  rfl

theorem inv_init (maxThreadNum : ℤ) : Inv (init (new maxThreadNum : ThreadPool α)) := by
  refine ⟨(numbered_new maxThreadNum).iterate_createAThread _, [], _, thdList_init maxThreadNum,
    fun _ hth => absurd hth List.not_mem_nil, ?_, le_refl _⟩
  simp

theorem MarkedFirst.threadLoop (h : MarkedFirst p) (hn : Numbered p) :
    MarkedFirst (p.threadLoop t) := by
  cases hth : p.thread t with
  | none =>
    rw [ThreadPool.threadLoop, hth]
    exact h
  | some th =>
    rcases threadLoop_cases hth with ⟨hm, he⟩ | ⟨-, -, he⟩ | ⟨-, task, rest, -, he⟩
    · obtain ⟨hmem, rfl⟩ := mem_of_thread hth
      exact he ▸ h.removeThread hn hmem hm
    · exact he ▸ h.setState _
    · have hq : MarkedFirst ({ p with taskList := rest, busyThdNum := p.busyThdNum + 1 } :
          ThreadPool α) := h
      rw [he]
      exact activeSomeThread_induct (fun _ h => h.createAThread) (hq.setState _)

theorem MarkedFirst.taskDone (h : MarkedFirst p) (hn : Numbered p) :
    MarkedFirst (p.taskDone t) := by
  have hq : MarkedFirst ({ p with busyThdNum := p.busyThdNum - 1 } : ThreadPool α) := h
  exact hq.terminateSomeThread.threadLoop hn.endTask

theorem MarkedFirst.acceptATask (h : MarkedFirst p) {task : α} {waiter : Option ℕ} :
    MarkedFirst (p.acceptATask task waiter) := by
  have hq : MarkedFirst ({ p with taskList := p.taskList ++ [task] } : ThreadPool α) := h
  cases waiter with
  | none => exact hq
  | some w => exact hq.setState _

/-- A thread in its loop loses no wake-up: it goes to sleep only if there are no tasks, and a
thread that ends was not counted on. -/
theorem NoLostWakeUp.threadLoop (h : NoLostWakeUp p) (hn : Numbered p) :
    NoLostWakeUp (p.threadLoop t) := by
  cases hth : p.thread t with
  | none =>
    rw [ThreadPool.threadLoop, hth]
    exact h
  | some th =>
    obtain ⟨hmem, rfl⟩ := mem_of_thread hth
    rcases threadLoop_cases hth with ⟨hm, he⟩ | ⟨-, hl, he⟩ | ⟨hm, task, rest, -, he⟩
    · rw [he]
      intro htasks
      obtain ⟨u, hu, hunmarked, hstate⟩ := h htasks
      refine ⟨u, List.mem_filter.mpr ⟨hu, ?_⟩, hunmarked, hstate⟩
      have hne : u.num ≠ th.num := by
        intro he
        rw [hn.eq_of_num hu hmem he, hm] at hunmarked
        cases hunmarked
      simpa using hne
    · rw [he]
      exact fun htasks => absurd hl htasks
    · -- the thread runs the task, also after new threads have been created
      have hruns : ∃ u ∈ (({ p with taskList := rest, busyThdNum := p.busyThdNum + 1 } :
          ThreadPool α).setState th.num (.running task)).thdList,
          u.needToTerminate = false ∧ u.state ≠ .blocked := by
        refine ⟨_, mem_setState.mpr ⟨th, hmem, rfl⟩, ?_⟩
        rw [if_pos rfl]
        exact ⟨hm, by simp⟩
      rw [he]
      refine fun _ => activeSomeThread_induct
        (P := fun p => ∃ u ∈ p.thdList, u.needToTerminate = false ∧ u.state ≠ .blocked)
        (fun q hq => ?_) hruns
      obtain ⟨u, hu, hrest⟩ := hq
      exact ⟨u, List.mem_append_left _ hu, hrest⟩

/-- Threads are marked only when there are no tasks. -/
theorem NoLostWakeUp.taskDone (h : NoLostWakeUp p) (hn : Numbered p) :
    NoLostWakeUp (p.taskDone t) := by
  refine NoLostWakeUp.threadLoop ?_ hn.endTask
  simp only [endTask, ThreadPool.terminateSomeThread]
  split_ifs with hempty
  · exact fun htasks => absurd hempty.1 htasks
  · exact h

/-- **A new task loses no wake-up exactly under the condition** on the waiter. -/
theorem noLostWakeUp_acceptATask_iff (h : MarkedFirst p) {task : α} {waiter : Option ℕ}
    (hw : p.CanNotify waiter) :
    Heeded p (.acceptATask task waiter) ↔ NoLostWakeUp (p.acceptATask task waiter) := by
  cases waiter with
  | none =>
    refine ⟨fun _ _ => ?_, fun _ => trivial⟩
    obtain ⟨th, hth, hm⟩ := h.exists_unmarked
    exact ⟨th, hth, hm, hw th hth⟩
  | some w =>
    constructor
    · rintro (⟨th, hth, rfl, hm⟩ | ⟨th, hth, hm, hstate⟩) -
      · refine ⟨_, mem_setState.mpr ⟨th, hth, rfl⟩, ?_⟩
        rw [if_pos rfl]
        exact ⟨hm, by simp⟩
      · refine ⟨_, mem_setState.mpr ⟨th, hth, rfl⟩, ?_⟩
        split_ifs
        · exact ⟨hm, by simp⟩
        · exact ⟨hm, hstate⟩
    · intro hno
      obtain ⟨u, hu, hm, hstate⟩ := hno (by simp [ThreadPool.acceptATask, ThreadPool.setState])
      obtain ⟨th, hth, rfl⟩ := mem_setState.mp hu
      split_ifs at hm hstate with he
      · exact Or.inl ⟨th, hth, he, hm⟩
      · exact Or.inr ⟨th, hth, hm, hstate⟩

section

variable [DecidableEq α] {a : Act α}

theorem Inv.step (h : Inv p) (hs : Step p a p') : Inv p' := by
  refine ⟨h.numbered.step hs, ?_⟩
  rcases step_cases hs with ⟨-, -, -, -, rfl⟩ | ⟨-, -, -, -, -, rfl⟩ | ⟨-, -, -, -, -, -, rfl⟩
  · exact h.marked.acceptATask
  · exact h.marked.threadLoop h.numbered
  · exact h.marked.taskDone h.numbered

/-- A step from a state without a lost wake-up meets the condition if and only if it loses
none. -/
theorem heeded_iff (h : MarkedFirst p) (hn : Numbered p) (hno : NoLostWakeUp p)
    (hs : Step p a p') : Heeded p a ↔ NoLostWakeUp p' := by
  rcases step_cases hs with ⟨task, waiter, rfl, hw, rfl⟩ | ⟨t, -, rfl, -, -, rfl⟩ |
    ⟨t, -, -, rfl, -, -, rfl⟩
  · exact noLostWakeUp_acceptATask_iff h hw
  · exact iff_of_true trivial (hno.threadLoop hn)
  · exact iff_of_true trivial (hno.taskDone hn)

/-! ### Runs -/

/-- **The runs that never lose a wake-up** are those in which no `acceptATask` notifies a thread
that has been told to terminate while every thread that has not is asleep. -/
theorem run_noLostWakeUp_iff (maxThreadNum : ℤ) (acts : List (Act α)) (p : ThreadPool α) :
    Runs.Run (Runs.guard Heeded Step) (init (new maxThreadNum)) acts p ↔
      Runs.Run (Runs.keeping NoLostWakeUp Step) (init (new maxThreadNum)) acts p :=
  Runs.run_guard_iff (inv_init maxThreadNum) (fun htasks => absurd rfl htasks)
    (fun _ _ _ hi hs => hi.step hs) fun _ _ _ hi hno hs => heeded_iff hi.marked hi.numbered hno hs

/-- A pool with four threads and up to ten is given six tasks, and grows to eight threads. When
all tasks are done, four threads are marked, of which one ends and three sleep. The next task
wakes the first one of these. -/
def sampleActs : List (Act ℕ) :=
  [.acceptATask 1 none, .acceptATask 2 none, .acceptATask 3 none, .acceptATask 4 none,
    .acceptATask 5 none, .acceptATask 6 none,
    .getMutex 0, .getMutex 1, .getMutex 2, .getMutex 3, .taskDone 0, .taskDone 1,
    .taskDone 0, .taskDone 1, .taskDone 2, .taskDone 3,
    .getMutex 4, .getMutex 5, .getMutex 6, .getMutex 7, .acceptATask 7 (some 0)]

/-- What they come to. -/
def sampleEnd : ThreadPool ℕ where
  taskList := [7]
  thdList := [⟨0, true, .woken⟩, ⟨1, true, .blocked⟩, ⟨2, true, .blocked⟩, ⟨4, false, .blocked⟩,
    ⟨5, false, .blocked⟩, ⟨6, false, .blocked⟩, ⟨7, false, .blocked⟩]
  maxThdNum := 10
  busyThdNum := 0
  created := 8

/-- **A task that is left alone**: the thread it has woken can only end, and the others sleep. -/
theorem not_noLostWakeUp_sample : ∃ p,
    Runs.Run Step (init (new 10)) sampleActs p ∧ ¬NoLostWakeUp p := by
  have hrun : sampleActs.foldlM step (init (new 10)) = some sampleEnd := rfl
  refine ⟨sampleEnd, Runs.run_of_foldlM hrun, fun hno => ?_⟩
  obtain ⟨th, hth, hm, hstate⟩ := hno (by nofun)
  have hasleep : ∀ th ∈ sampleEnd.thdList, th.needToTerminate = false → th.state = .blocked := by
    decide
  exact hstate (hasleep th hth hm)

end

end ThreadPool

end BackendStudy
