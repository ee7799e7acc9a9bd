import BackendStudy.ThreadPool.Size

/-!
# When the thread pool grows

A pool is to grow when all of its threads are busy, the queue is half as long as the list of
threads and the list may still get longer. It looks at this only where a thread takes a task,
after it has taken it: there the rule holds afterwards
(`BackendStudy.ThreadPool.growthRule_activeSomeThread`). But a task that is accepted while all
threads are busy, or a marked thread that ends and leaves only busy ones, may bring the pool to a
state that the rule forbids (`BackendStudy.ThreadPool.not_growthRule_sample`), and these are the
only steps that do (`BackendStudy.ThreadPool.run_growthRule_iff`).
-/

namespace BackendStudy

/-- The thread runs a task. -/
def Thread.Busy {α : Type*} (th : Thread α) : Prop := ∃ task, th.state = .running task

namespace ThreadPool

variable {α : Type*} {n : ℤ} {p : ThreadPool α} {t : ℕ} {th : Thread α}

/-- **The growth rule**: it is not the case that all threads are busy, at least half as many tasks
as threads are queued, and the pool may grow. -/
def GrowthRule (p : ThreadPool α) : Prop :=
  ¬((∀ th ∈ p.thdList, th.Busy) ∧ p.thdList.length ≤ 2 * p.taskList.length ∧
    (p.thdList.length : ℤ) < p.maxThdNum)

/-- The condition on a step: a task is accepted only while a thread is not busy, or the queue is
short with it too, or the pool is as large as it may be; and a marked thread gets the mutex only
while one of the others is not busy, or the queue is short for them, or they are as many as the
pool may have. -/
def InTime (s : System α) : Event α → Prop
  | .acceptATask _ _ =>
    (∃ th ∈ s.pool.thdList, ¬th.Busy) ∨
      2 * (s.pool.taskList.length + 1) < s.pool.thdList.length ∨
      s.pool.maxThdNum ≤ s.pool.thdList.length
  | .getMutex t =>
    (∃ th ∈ s.pool.thdList, th.num = t ∧ th.needToTerminate = false) ∨
      (∃ th ∈ s.pool.thdList, th.num ≠ t ∧ ¬th.Busy) ∨
      2 * s.pool.taskList.length + 1 < s.pool.thdList.length ∨
      s.pool.maxThdNum + 1 ≤ s.pool.thdList.length
  | _ => True

/-! ### The rule -/

theorem task?_isSome_iff : th.state.task?.isSome ↔ th.Busy := by
  rw [Thread.Busy]
  cases th.state <;> simp [ThreadState.task?]

theorem not_busy_of_task? (h : th.state.task? = none) : ¬th.Busy := by
  rw [← task?_isSome_iff, h]
  nofun

/-- The rule, by what makes it hold. -/
theorem growthRule_iff : GrowthRule p ↔ (∃ th ∈ p.thdList, ¬th.Busy) ∨
    2 * p.taskList.length < p.thdList.length ∨ p.maxThdNum ≤ p.thdList.length := by
  rw [GrowthRule, Classical.not_and_iff_not_or_not, Classical.not_and_iff_not_or_not, not_le,
    not_lt]
  simp only [not_forall, exists_prop]

theorem growthRule_of_not_busy (hth : th ∈ p.thdList) (hb : ¬th.Busy) : GrowthRule p :=
  growthRule_iff.mpr (Or.inl ⟨th, hth, hb⟩)

/-- A thread that goes on to something else than a task is not busy. -/
theorem growthRule_setState (hth : p.thread t = some th) {state : ThreadState α}
    (hnone : state.task? = none) : GrowthRule (p.setState t state) := by
  obtain ⟨hmem, hnum⟩ := mem_of_thread hth
  refine growthRule_of_not_busy (mem_setState.mpr ⟨th, hmem, rfl⟩) (not_busy_of_task? ?_)
  rw [if_pos hnum]
  exact hnone

/-- Where no thread is busy but those that are counted, the others are free. -/
theorem exists_not_busy (h : (running p).length < p.thdList.length) :
    ∃ th ∈ p.thdList, ¬th.Busy := by
  by_contra hall
  push Not at hall
  have hlength : (running p).length = p.thdList.length := by
    rw [running, List.length_filterMap_eq_countP]
    exact List.countP_eq_length.mpr fun th hth => task?_isSome_iff.mpr (hall th hth)
  omega

/-- **The rule holds where the pool looks at it.** -/
theorem growthRule_activeSomeThread (hbusy : p.busyThdNum = (running p).length)
    (hpos : 0 < p.thdList.length) : GrowthRule p.activeSomeThread.1 := by
  rw [activeSomeThread]
  split_ifs with hfull
  · change GrowthRule
      (createAThread^[(min (2 * (p.thdList.length : ℤ)) p.maxThdNum - p.thdList.length).toNat] p)
    generalize hk : (min (2 * (p.thdList.length : ℤ)) p.maxThdNum - p.thdList.length).toNat = k
    cases k with
    | zero =>
      refine growthRule_iff.mpr (Or.inr (Or.inr ?_))
      rw [Function.iterate_zero, id]
      omega
    | succ k =>
      -- the thread that is created last has not started
      have hlast : (⟨(createAThread^[k] p).created, false, .started⟩ : Thread α) ∈
          (createAThread^[k + 1] p).thdList := by
        rw [Function.iterate_succ_apply', createAThread]
        exact List.mem_append_right _ List.mem_cons_self
      exact growthRule_of_not_busy hlast (not_busy_of_task? rfl)
  · change GrowthRule p
    rw [not_and_or, ge_iff_le, ge_iff_le, not_le, not_le] at hfull
    rcases hfull with hfree | hshort
    · exact growthRule_iff.mpr (Or.inl (exists_not_busy (by omega)))
    · refine growthRule_iff.mpr (Or.inr (Or.inl ?_))
      omega

/-! ### Marked threads are not busy -/

/-- No busy thread is marked, but for one at most. -/
def BusyUnmarkedBut (p : ThreadPool α) (t : ℕ) : Prop :=
  ∀ th ∈ p.thdList, th.num ≠ t → th.Busy → th.needToTerminate = false

/-- **No busy thread is marked.** -/
def BusyUnmarked (p : ThreadPool α) : Prop :=
  ∀ th ∈ p.thdList, th.Busy → th.needToTerminate = false

theorem BusyUnmarked.but (h : BusyUnmarked p) (t : ℕ) : BusyUnmarkedBut p t :=
  fun th hth _ hb => h th hth hb

/-- A thread that goes on to a task is not marked, and others may be. -/
theorem BusyUnmarkedBut.setState (h : BusyUnmarkedBut p t) (hn : Numbered p)
    (hth : p.thread t = some th) {state : ThreadState α}
    (hstate : state.task? = none ∨ th.needToTerminate = false) :
    BusyUnmarked (p.setState t state) := by
  obtain ⟨hmem, hnum⟩ := mem_of_thread hth
  intro u hu hb
  obtain ⟨v, hv, rfl⟩ := mem_setState.mp hu
  by_cases hvt : v.num = t
  · obtain rfl : v = th := hn.eq_of_num hv hmem (hvt.trans hnum.symm)
    rw [if_pos hvt] at hb ⊢
    exact hstate.resolve_left fun hnone => not_busy_of_task? hnone hb
  · rw [if_neg hvt] at hb ⊢
    exact h v hv hvt hb

theorem BusyUnmarked.createAThread (h : BusyUnmarked p) : BusyUnmarked p.createAThread := by
  intro u hu hb
  rcases List.mem_append.mp hu with hu | hu
  · exact h u hu hb
  · obtain rfl := List.mem_singleton.mp hu
    rfl

theorem BusyUnmarkedBut.threadLoop (h : BusyUnmarkedBut p t) (hn : Numbered p)
    (hth : p.thread t = some th) : BusyUnmarked (p.threadLoop t) := by
  rcases threadLoop_cases hth with ⟨-, he⟩ | ⟨-, -, he⟩ | ⟨hm, task, rest, -, he⟩
  · rw [he]
    intro u hu hb
    obtain ⟨hu, hut⟩ := List.mem_filter.mp hu
    exact h u hu (by simpa using hut) hb
  · exact he ▸ h.setState hn hth (Or.inl rfl)
  · have hq : BusyUnmarkedBut ({ p with taskList := rest, busyThdNum := p.busyThdNum + 1 } :
        ThreadPool α) t := h
    have hnq : Numbered ({ p with taskList := rest, busyThdNum := p.busyThdNum + 1 } :
        ThreadPool α) := ⟨hn.nodup, hn.created⟩
    rw [he]
    exact activeSomeThread_induct (fun _ h => h.createAThread) (hq.setState hnq hth (Or.inr hm))

/-- Where one thread is busy, the thread that ends its task is the one. -/
theorem not_busy_of_running (hn : Numbered p) (hth : p.thread t = some th) (hb : th.Busy)
    (hone : (running p).length = 1) : ∀ u ∈ p.thdList, u.num ≠ t → ¬u.Busy := by
  obtain ⟨A, B, hl, -, -⟩ := hn.exists_split hth
  obtain ⟨task, hstate⟩ := hb
  have htask : th.state.task? = some task := by rw [hstate]; rfl
  have hcount : ∀ l : List (Thread α), (l.filterMap (·.state.task?)).length = 0 →
      ∀ u ∈ l, ¬u.Busy := by
    intro l hlen u hu
    rw [List.length_eq_zero_iff, List.filterMap_eq_nil_iff] at hlen
    exact not_busy_of_task? (hlen u hu)
  rw [running, hl, List.filterMap_append, filterMap_cons_toList, htask] at hone
  simp only [List.length_append, Option.toList_some, List.length_singleton] at hone
  intro u hu hut
  rw [hl, List.mem_append, List.mem_cons] at hu
  rcases hu with hu | rfl | hu
  · exact hcount A (by omega) u hu
  · exact absurd (mem_of_thread hth).2 hut
  · exact hcount B (by omega) u hu

/-- Threads are marked while no thread is busy but the one that ends its task. -/
theorem BusyUnmarked.endTask (h : BusyUnmarked p) (hn : Numbered p) (hth : p.thread t = some th)
    (hb : th.Busy) (hbusy : p.busyThdNum = (running p).length) : BusyUnmarkedBut p.endTask t := by
  by_cases hone : (running p).length = 1
  · intro u hu hut hub
    obtain ⟨v, hv, hnum, hstate, -⟩ := mem_terminateSomeThread hu
    refine absurd ?_ (not_busy_of_running hn hth hb hone v hv (hnum ▸ hut))
    rwa [Thread.Busy, ← hstate]
  · have hsame : p.endTask.thdList = p.thdList := by
      rw [ThreadPool.endTask, terminateSomeThread, if_neg]
      rintro ⟨-, hzero⟩
      simp only at hzero
      omega
    intro u hu _ hub
    exact h u (hsame ▸ hu) hub

/-- A thread that ends its task, and is marked, has left the queue empty. -/
theorem taskList_of_marked {u : Thread α} (h : BusyUnmarked p) (hth : p.thread t = some th)
    (hb : th.Busy) (hu : p.endTask.thread t = some u) (hm : u.needToTerminate = true) :
    (p.taskDone t).taskList = [] := by
  by_contra hne
  have hloop : p.taskDone t = p.endTask.removeThread t := by
    rcases threadLoop_cases hu with ⟨-, he⟩ | ⟨hm', -⟩ | ⟨hm', -⟩
    · exact he
    · rw [hm] at hm'
      cases hm'
    · rw [hm] at hm'
      cases hm'
  set q : ThreadPool α := { p with busyThdNum := p.busyThdNum - 1 } with hq
  have hqueue : p.taskList ≠ [] := by
    rw [hloop] at hne
    change q.terminateSomeThread.1.taskList ≠ [] at hne
    rwa [(taskList_terminateSomeThread q).1] at hne
  have hsame : p.endTask.thread t = p.thread t := by
    rw [endTask, terminateSomeThread, if_neg fun hempty => hqueue hempty.1]
    rfl
  rw [hsame, hth] at hu
  obtain rfl := Option.some.inj hu
  rw [h th (mem_of_thread hth).1 hb] at hm
  cases hm

/-! ### The steps -/

/-- **The invariant of the growth rule.** -/
structure Growing (n : ℤ) (s : System α) : Prop where
  used : Used n s
  accounts : Accounts s
  unmarked : BusyUnmarked s.pool

section

variable {s s' : System α} {e : Event α}

theorem growing_initialised (n : ℤ) : Growing n (System.initialised n : System α) := by
  refine ⟨used_initialised n, (accounts_new n).step (System.Step.init rfl), ?_⟩
  intro th hth _
  rw [System.initialised, thdList_init] at hth
  simp only [List.mem_cons, List.not_mem_nil, or_false] at hth
  rcases hth with rfl | rfl | rfl | rfl <;> rfl

theorem Growing.step (h : Growing n s) (hs : System.Use s e s') : Growing n s' := by
  refine ⟨h.used.step hs, h.accounts.step hs.2, ?_⟩
  have hn := h.used.inv.numbered
  obtain ⟨-, hcases⟩ := System.use_cases h.used.alive hs
  rcases hcases with ⟨task, waiter, -, hw, he⟩ | ⟨t, th, -, hth, -, he⟩ |
    ⟨t, th, task, -, hth, hstate, he⟩ | ⟨t, th, -, hth, -, he⟩
  · rw [he]
    cases waiter with
    | none => exact h.unmarked
    | some w =>
      obtain ⟨th, hth, hnum, -⟩ := hw
      have hq : BusyUnmarkedBut ({ s.pool with taskList := s.pool.taskList ++ [task] } :
          ThreadPool α) w := h.unmarked.but w
      have hnq : Numbered ({ s.pool with taskList := s.pool.taskList ++ [task] } :
          ThreadPool α) := ⟨hn.nodup, hn.created⟩
      exact hq.setState hnq (hnq.thread_eq hth hnum) (Or.inl rfl)
  · exact he ▸ (h.unmarked.but t).threadLoop hn hth
  · obtain ⟨u, hu, -⟩ := hn.thread_endTask hth
    have hbut := h.unmarked.endTask hn hth ⟨task, hstate⟩ h.accounts.busy
    exact he ▸ hbut.threadLoop hn.endTask hu
  · exact he ▸ (h.unmarked.but t).setState hn hth (Or.inl rfl)

/-- A thread that goes on leaves the rule in force, unless it ends. -/
theorem growthRule_threadLoop (hth : p.thread t = some th) (hm : th.needToTerminate = false)
    (hbusy : (p.threadLoop t).busyThdNum = (running (p.threadLoop t)).length) :
    GrowthRule (p.threadLoop t) := by
  rcases threadLoop_cases hth with ⟨hm', -⟩ | ⟨-, -, he⟩ | ⟨-, task, rest, -, he⟩
  · rw [hm] at hm'
    cases hm'
  · exact he ▸ growthRule_setState hth rfl
  · set q : ThreadPool α := { p with taskList := rest, busyThdNum := p.busyThdNum + 1 } with hq
    have hsame := sameTasks_activeSomeThread (q.setState t (.running task))
    rw [he, hsame.running, hsame.busy] at hbusy
    rw [he]
    refine growthRule_activeSomeThread hbusy ?_
    rw [setState, List.length_map]
    exact List.length_pos_of_mem (mem_of_thread hth).1

/-- Where the queue is empty, the rule holds. -/
theorem growthRule_of_nil (hpos : 0 < p.thdList.length) (hempty : p.taskList = []) :
    GrowthRule p := by
  refine growthRule_iff.mpr (Or.inr (Or.inl ?_))
  rw [hempty]
  exact hpos

/-- A task that is accepted leaves the rule in force exactly under the condition. -/
theorem inTime_acceptATask_iff {task : α} {waiter : Option ℕ} (hw : s.pool.CanNotify waiter) :
    InTime s (.acceptATask task (waiter.map Waiter.thread)) ↔
      GrowthRule (s.pool.acceptATask task waiter) := by
  cases waiter with
  | none =>
    rw [growthRule_iff]
    simp only [InTime, acceptATask, List.length_append, List.length_singleton]
  | some w =>
    -- a thread that waits, and is woken, is not busy
    obtain ⟨th, hth, hnum, hb⟩ := hw
    have hfree : ∃ th ∈ s.pool.thdList, ¬th.Busy :=
      ⟨th, hth, not_busy_of_task? (by rw [hb]; rfl)⟩
    refine iff_of_true (Or.inl hfree) ?_
    refine growthRule_of_not_busy (mem_setState.mpr ⟨th, hth, rfl⟩) (not_busy_of_task? ?_)
    rw [if_pos hnum]
    rfl

/-- A marked thread that ends leaves the rule in force exactly under the condition. -/
theorem inTime_getMutex_iff (hn : Numbered s.pool) (hth : s.pool.thread t = some th)
    (hm : th.needToTerminate = true) :
    InTime s (.getMutex t) ↔ GrowthRule (s.pool.removeThread t) := by
  obtain ⟨hmem, hnum⟩ := mem_of_thread hth
  obtain ⟨A, B, hl, hA, hB⟩ := hn.exists_split hth
  have hsame : ∀ l : List (Thread α), (∀ u ∈ l, u.num ≠ t) → l.filter (·.num ≠ t) = l := by
    intro l hne
    exact List.filter_eq_self.mpr fun u hu => by simpa using hne u hu
  have hlength : (s.pool.removeThread t).thdList.length + 1 = s.pool.thdList.length := by
    rw [removeThread, hl, List.filter_append, List.filter_cons_of_neg (by simpa using hnum),
      hsame A hA, hsame B hB, List.length_append, List.length_append, List.length_cons]
    rfl
  have hunmarked : ¬∃ u ∈ s.pool.thdList, u.num = t ∧ u.needToTerminate = false := by
    rintro ⟨u, hu, hut, hfalse⟩
    rw [hn.eq_of_num hu hmem (hut.trans hnum.symm), hm] at hfalse
    cases hfalse
  have hfree : (∃ u ∈ (s.pool.removeThread t).thdList, ¬u.Busy) ↔
      ∃ u ∈ s.pool.thdList, u.num ≠ t ∧ ¬u.Busy := by
    simp only [removeThread, List.mem_filter, decide_eq_true_eq, and_assoc]
  rw [growthRule_iff, hfree, InTime, or_iff_right hunmarked]
  have hqueue : (s.pool.removeThread t).taskList = s.pool.taskList := rfl
  have hmax : (s.pool.removeThread t).maxThdNum = s.pool.maxThdNum := rfl
  rw [hqueue, hmax]
  refine or_congr_right (or_congr ?_ ?_) <;> omega

/-- **A step meets the condition exactly if it leaves the rule in force.** -/
theorem inTime_iff (h : Growing n s) (hs : System.Use s e s') :
    InTime s e ↔ GrowthRule s'.pool := by
  have hn := h.used.inv.numbered
  have hbusy := (h.step hs).accounts.busy
  have hpos : 0 < s'.pool.thdList.length := by
    obtain ⟨th, hth, -⟩ := (h.step hs).used.inv.marked.exists_unmarked
    exact List.length_pos_of_mem hth
  obtain ⟨-, hcases⟩ := System.use_cases h.used.alive hs
  rcases hcases with ⟨task, waiter, rfl, hw, he⟩ | ⟨t, th, rfl, hth, -, he⟩ |
    ⟨t, th, task, rfl, hth, hstate, he⟩ | ⟨t, th, rfl, hth, hb, he⟩
  · rw [he]
    exact inTime_acceptATask_iff hw
  · rw [he] at hbusy ⊢
    cases hm : th.needToTerminate with
    | true =>
      rcases threadLoop_cases hth with ⟨-, he'⟩ | ⟨hm', -⟩ | ⟨hm', -⟩
      · rw [he']
        exact inTime_getMutex_iff hn hth hm
      · rw [hm] at hm'
        cases hm'
      · rw [hm] at hm'
        cases hm'
    | false =>
      obtain ⟨hmem, hnum⟩ := mem_of_thread hth
      exact iff_of_true (Or.inl ⟨th, hmem, hnum, hm⟩) (growthRule_threadLoop hth hm hbusy)
  · refine iff_of_true trivial ?_
    rw [he] at hbusy hpos ⊢
    obtain ⟨u, hu, hus⟩ := hn.thread_endTask hth
    cases hm : u.needToTerminate with
    | false => exact growthRule_threadLoop hu hm hbusy
    | true =>
      -- a thread is marked while it is busy only where the queue is empty
      exact growthRule_of_nil hpos (taskList_of_marked h.unmarked hth ⟨task, hstate⟩ hu hm)
  · refine iff_of_true trivial ?_
    rw [he]
    exact growthRule_setState hth rfl

/-! ### Runs -/

/-- **The runs in which the growth rule is always in force** are those in which every task is
accepted, and every marked thread gets the mutex, under the condition. -/
theorem run_growthRule_iff (maxThreadNum : ℤ) (es : List (Event α)) (s : System α) :
    Runs.Run (Runs.guard InTime System.Use) (System.initialised maxThreadNum) es s ↔
      Runs.Run (Runs.keeping (fun s => GrowthRule s.pool) System.Use)
        (System.initialised maxThreadNum) es s := by
  refine Runs.run_guard_iff (growing_initialised maxThreadNum) ?_
    (fun _ _ _ hg hs => hg.step hs) fun _ _ _ hg _ hs => inTime_iff hg hs
  exact growthRule_of_nil (Nat.zero_lt_succ 3) rfl

/-- **A pool that does not grow**: each of the four threads takes a task when there is no other
one, and the two tasks that come then are queued. -/
theorem not_growthRule_sample : ∃ s : System ℕ,
    Runs.Run System.Use (System.initialised 10) [.acceptATask 1 none, .getMutex 0,
      .acceptATask 2 none, .getMutex 1, .acceptATask 3 none, .getMutex 2, .acceptATask 4 none,
      .getMutex 3, .acceptATask 5 none, .acceptATask 6 none] s ∧ ¬GrowthRule s.pool := by
  have h₀ : Runs.Run System.Use (System.initialised 10 : System ℕ) []
      (System.initialised 10) := .nil
  have h₁ := h₀.snoc (i := Event.acceptATask 1 none)
    ⟨trivial, .acceptATask nofun ⟨by decide, nofun⟩⟩
  have h₂ := h₁.snoc (i := Event.getMutex 0) ⟨trivial, .getMutex rfl (Or.inl rfl)⟩
  have h₃ := h₂.snoc (i := Event.acceptATask 2 none)
    ⟨trivial, .acceptATask nofun ⟨by decide, nofun⟩⟩
  have h₄ := h₃.snoc (i := Event.getMutex 1) ⟨trivial, .getMutex rfl (Or.inl rfl)⟩
  have h₅ := h₄.snoc (i := Event.acceptATask 3 none)
    ⟨trivial, .acceptATask nofun ⟨by decide, nofun⟩⟩
  have h₆ := h₅.snoc (i := Event.getMutex 2) ⟨trivial, .getMutex rfl (Or.inl rfl)⟩
  have h₇ := h₆.snoc (i := Event.acceptATask 4 none)
    ⟨trivial, .acceptATask nofun ⟨by decide, nofun⟩⟩
  have h₈ := h₇.snoc (i := Event.getMutex 3) ⟨trivial, .getMutex rfl (Or.inl rfl)⟩
  have h₉ := h₈.snoc (i := Event.acceptATask 5 none)
    ⟨trivial, .acceptATask nofun ⟨by decide, nofun⟩⟩
  have h₁₀ := h₉.snoc (i := Event.acceptATask 6 none)
    ⟨trivial, .acceptATask nofun ⟨by decide, nofun⟩⟩
  have hall : ∀ th ∈ ([⟨0, false, .running 1⟩, ⟨1, false, .running 2⟩, ⟨2, false, .running 3⟩,
      ⟨3, false, .running 4⟩] : List (Thread ℕ)), th.Busy := by
    simp [Thread.Busy]
  exact ⟨_, h₁₀, fun hrule => hrule ⟨hall, by decide, by decide⟩⟩

end

end ThreadPool

end BackendStudy
