import BackendStudy.ThreadPool.Accounting
import BackendStudy.ThreadPool.WakeUp

/-!
# The size of the thread pool

A pool between its one `init` and its destructor takes in tasks, and its threads work, go to
sleep, wake up and end (`BackendStudy.ThreadPool.System.Use`). It shrinks by marking the first
half of its threads, whether they are marked already or not, and grows at the back. As the
marked threads always come first, at least `minThdNum` are left unmarked, and since growing stops at
`maxThdNum` the list never gets longer than that, or than what `init` has created
(`BackendStudy.ThreadPool.run_size`).
-/

namespace BackendStudy

namespace ThreadPool

variable {α : Type*} {n : ℤ} {p : ThreadPool α} {t : ℕ}

/-! ### A pool in use -/

/-- A step of the pool, as an event in its life. -/
def Act.event : Act α → Event α
  | .acceptATask task waiter => .acceptATask task (waiter.map Waiter.thread)
  | .getMutex t => .getMutex t
  | .taskDone t => .taskDone t

/-- The events between `init` and the destructor. -/
def Event.InUse : Event α → Prop
  | .acceptATask _ _ => True
  | .getMutex _ => True
  | .taskDone _ => True
  | .wake _ => True
  | .init => False
  | .destroy => False
  | .wakeDestructor => False
  | .resume => False

namespace System

/-- A pool after its one `init`. -/
def initialised (maxThreadNum : ℤ) : System α :=
  { System.new maxThreadNum with pool := (ThreadPool.new maxThreadNum).init }

/-- **One step of a pool in use.** -/
def Use (s : System α) (e : Event α) (s' : System α) : Prop :=
  Runs.guard (fun _ e => e.InUse) Step s e s'

/-- **What a step of a pool in use is.** -/
theorem use_cases {s s' : System α} {e : Event α} (halive : s.phase = .alive)
    (hs : Use s e s') : s'.phase = .alive ∧
      ((∃ task waiter, e = .acceptATask task (waiter.map Waiter.thread) ∧
          s.pool.CanNotify waiter ∧ s'.pool = s.pool.acceptATask task waiter) ∨
        (∃ t th, e = .getMutex t ∧ s.pool.thread t = some th ∧
          (th.state = .started ∨ th.state = .woken) ∧ s'.pool = s.pool.threadLoop t) ∨
        (∃ t th task, e = .taskDone t ∧ s.pool.thread t = some th ∧ th.state = .running task ∧
          s'.pool = s.pool.taskDone t) ∨
        ∃ t th, e = .wake t ∧ s.pool.thread t = some th ∧ th.state = .blocked ∧
          s'.pool = s.pool.setState t .woken) := by
  have hloop : ∀ (p : ThreadPool α) (t : ℕ), (s.loop p t).phase = .alive := by
    intro p t
    rw [System.loop]
    simp only [halive, reduceCtorEq, and_false, if_false]
  obtain ⟨huse, hs⟩ := hs
  cases hs with
  | init _ => exact huse.elim
  | @acceptATask task waiter _ hw =>
    cases waiter with
    | none => exact ⟨halive, Or.inl ⟨task, none, rfl, hw.1, rfl⟩⟩
    | some waiter =>
      cases waiter with
      | thread w => exact ⟨halive, Or.inl ⟨task, some w, rfl, hw, rfl⟩⟩
      | destructor => exact absurd (halive.symm.trans hw) (by simp)
  | @getMutex t th hth hstate =>
    exact ⟨hloop s.pool t, Or.inr (Or.inl ⟨t, th, rfl, hth, hstate, rfl⟩)⟩
  | @taskDone t th task hth hstate =>
    exact ⟨hloop s.pool.endTask t, Or.inr (Or.inr (Or.inl ⟨t, th, task, rfl, hth, hstate, rfl⟩))⟩
  | @wake t th hth hb => exact ⟨halive, Or.inr (Or.inr (Or.inr ⟨t, th, rfl, hth, hb, rfl⟩))⟩
  | destroy _ => exact huse.elim
  | wakeDestructor _ => exact huse.elim
  | resume _ => exact huse.elim

/-- **The steps of the pool** are steps of a pool in use. -/
theorem exists_use [DecidableEq α] {s : System α} {a : Act α} (halive : s.phase = .alive)
    (hs : ThreadPool.Step s.pool a p) :
    ∃ s', Use s a.event s' ∧ s'.phase = .alive ∧ s'.pool = p := by
  suffices huse : ∃ s', Use s a.event s' ∧ s'.pool = p by
    obtain ⟨s', hs', hpool⟩ := huse
    exact ⟨s', hs', (use_cases halive hs').1, hpool⟩
  rcases step_cases hs with ⟨task, waiter, rfl, hw, rfl⟩ | ⟨t, th, rfl, hth, hstate, rfl⟩ |
    ⟨t, th, task, rfl, hth, hstate, rfl⟩
  · have hphase : s.phase ≠ .destroyed := by simp [halive]
    cases waiter with
    | none => exact ⟨_, ⟨trivial, .acceptATask hphase ⟨hw, by simp [halive]⟩⟩, rfl⟩
    | some w => exact ⟨_, ⟨trivial, @Step.acceptATask _ _ _ (some (.thread w)) hphase hw⟩, rfl⟩
  · exact ⟨_, ⟨trivial, .getMutex hth hstate⟩, rfl⟩
  · exact ⟨_, ⟨trivial, .taskDone hth hstate⟩, rfl⟩

/-- Runs of the pool are runs of a pool in use. -/
theorem exists_use_run [DecidableEq α] {acts : List (Act α)}
    (h : Runs.Run ThreadPool.Step (ThreadPool.init (ThreadPool.new n)) acts p) :
    ∃ s, Runs.Run Use (initialised n) (acts.map Act.event) s ∧ s.phase = .alive ∧ s.pool = p := by
  induction h with
  | nil => exact ⟨_, .nil, rfl, rfl⟩
  | snoc _ hs ih =>
    obtain ⟨s, hrun, halive, rfl⟩ := ih
    obtain ⟨s', hs', halive', rfl⟩ := exists_use halive hs
    rw [List.map_append]
    exact ⟨s', hrun.snoc hs', halive', rfl⟩

end System

/-! ### The upper bound -/

/-- A pool that may grow to `n` threads is not larger than that, or than `init` makes it. -/
structure Sized (n : ℤ) (p : ThreadPool α) : Prop where
  maxThdNum : p.maxThdNum = n
  length : (p.thdList.length : ℤ) ≤ max n minThdNum

theorem Sized.setState (h : Sized n p) (state : ThreadState α) : Sized n (p.setState t state) :=
  ⟨h.maxThdNum, by rw [ThreadPool.setState, List.length_map]; exact h.length⟩

theorem Sized.removeThread (h : Sized n p) : Sized n (p.removeThread t) := by
  refine ⟨h.maxThdNum, le_trans ?_ h.length⟩
  exact_mod_cast List.length_filter_le _ p.thdList

theorem Sized.acceptATask (h : Sized n p) {task : α} {waiter : Option ℕ} :
    Sized n (p.acceptATask task waiter) := by
  have hq : Sized n ({ p with taskList := p.taskList ++ [task] } : ThreadPool α) :=
    ⟨h.maxThdNum, h.length⟩
  cases waiter with
  | none => exact hq
  | some w => exact hq.setState _

theorem length_iterate_createAThread (p : ThreadPool α) (k : ℕ) :
    (ThreadPool.createAThread^[k] p).thdList.length = p.thdList.length + k := by
  induction k with
  | zero => rfl
  | succ k ih =>
    rw [Function.iterate_succ_apply', createAThread, List.length_append, ih]
    rfl

theorem maxThdNum_iterate_createAThread (p : ThreadPool α) (k : ℕ) :
    (ThreadPool.createAThread^[k] p).maxThdNum = p.maxThdNum :=
  iterate_createAThread (P := fun q => q.maxThdNum = p.maxThdNum) (fun _ h => h) rfl k

/-- Growing doubles the list, and stops at the largest number of threads. -/
theorem Sized.activeSomeThread (h : Sized n p) : Sized n p.activeSomeThread.1 := by
  rw [ThreadPool.activeSomeThread]
  split_ifs
  · refine ⟨(maxThdNum_iterate_createAThread p _).trans h.maxThdNum, ?_⟩
    have hlength := h.length
    rw [length_iterate_createAThread, h.maxThdNum]
    push_cast
    omega
  · exact h

theorem Sized.terminateSomeThread (h : Sized n p) : Sized n p.terminateSomeThread.1 := by
  have hlength : p.terminateSomeThread.1.thdList.length = p.thdList.length := by
    have hnums := congrArg List.length (nums_terminateSomeThread p)
    rwa [List.length_map, List.length_map] at hnums
  refine ⟨?_, hlength ▸ h.length⟩
  rw [ThreadPool.terminateSomeThread]
  split_ifs
  · exact h.maxThdNum
  · exact h.maxThdNum

theorem Sized.threadLoop (h : Sized n p) : Sized n (p.threadLoop t) := by
  cases hth : p.thread t with
  | none =>
    rw [ThreadPool.threadLoop, hth]
    exact h
  | some th =>
    rcases threadLoop_cases hth with ⟨-, he⟩ | ⟨-, -, he⟩ | ⟨-, task, rest, -, he⟩
    · exact he ▸ h.removeThread
    · exact he ▸ h.setState _
    · have hq : Sized n ({ p with taskList := rest, busyThdNum := p.busyThdNum + 1 } :
          ThreadPool α) := ⟨h.maxThdNum, h.length⟩
      rw [he]
      exact (hq.setState _).activeSomeThread

theorem Sized.taskDone (h : Sized n p) : Sized n (p.taskDone t) := by
  have hq : Sized n ({ p with busyThdNum := p.busyThdNum - 1 } : ThreadPool α) :=
    ⟨h.maxThdNum, h.length⟩
  exact hq.terminateSomeThread.threadLoop

/-! ### Runs -/

/-- **The invariant of a pool in use.** -/
structure Used (n : ℤ) (s : System α) : Prop where
  alive : s.phase = .alive
  inv : Inv s.pool
  sized : Sized n s.pool

section

variable {s s' : System α} {e : Event α} {es : List (Event α)}

theorem used_initialised (n : ℤ) : Used n (System.initialised n : System α) := by
  refine ⟨rfl, inv_init n, rfl, ?_⟩
  rw [System.initialised, thdList_init]
  exact le_max_right _ _

/-- **Every step of a pool in use keeps the invariant.** -/
theorem Used.step (h : Used n s) (hs : System.Use s e s') : Used n s' := by
  obtain ⟨hnumbered, hmarked⟩ := h.inv
  obtain ⟨halive, hcases⟩ := System.use_cases h.alive hs
  rcases hcases with ⟨task, waiter, -, -, he⟩ | ⟨t, th, -, -, -, he⟩ | ⟨t, th, task, -, -, -, he⟩ |
    ⟨t, th, -, -, -, he⟩
  · refine ⟨halive, ⟨?_, ?_⟩, ?_⟩ <;> rw [he]
    · exact hnumbered.acceptATask
    · exact hmarked.acceptATask
    · exact h.sized.acceptATask
  · refine ⟨halive, ⟨?_, ?_⟩, ?_⟩ <;> rw [he]
    · exact hnumbered.threadLoop
    · exact hmarked.threadLoop hnumbered
    · exact h.sized.threadLoop
  · refine ⟨halive, ⟨?_, ?_⟩, ?_⟩ <;> rw [he]
    · exact hnumbered.taskDone
    · exact hmarked.taskDone hnumbered
    · exact h.sized.taskDone
  · refine ⟨halive, ⟨?_, ?_⟩, ?_⟩ <;> rw [he]
    · exact hnumbered.setState _
    · exact hmarked.setState _
    · exact h.sized.setState _

theorem used_of_run (h : Runs.Run System.Use (System.initialised n) es s) : Used n s :=
  h.invariant (used_initialised n) fun _ _ _ hu hs => hu.step hs

/-- The threads that are not marked stand behind the marked ones. -/
theorem MarkedFirst.le_countP (h : MarkedFirst p) :
    minThdNum ≤ (p.thdList.countP fun th => !th.needToTerminate : ℕ) := by
  obtain ⟨l₁, l₂, hl, h₁, h₂, hlen⟩ := h
  have hcount₂ : l₂.countP (fun th => !th.needToTerminate) = l₂.length :=
    List.countP_eq_length.mpr fun th hth => by rw [h₂ th hth]; rfl
  rw [hl, List.countP_append, hcount₂]
  push_cast
  omega

/-- **The size of the pool**, in every state of a pool in use: `minThdNum` of its threads at least
are not marked for termination, and it has no more threads than `maxThdNum`, or than `minThdNum`
if that is more. -/
theorem run_size {maxThreadNum : ℤ}
    (h : Runs.Run System.Use (System.initialised maxThreadNum) es s) :
    minThdNum ≤ (s.pool.thdList.countP fun th => !th.needToTerminate : ℕ) ∧
      (s.pool.thdList.length : ℤ) ≤ max maxThreadNum minThdNum := by
  have hused := used_of_run h
  exact ⟨hused.inv.marked.le_countP, hused.sized.length⟩

/-- The run in which the pool grows to eight threads, marks four of them, and one has ended. -/
theorem run_size_sample : ∃ s : System ℕ,
    Runs.Run System.Use (System.initialised 10) (sampleActs.map Act.event) s ∧
    s.pool.thdList.length = 7 ∧
    minThdNum ≤ (s.pool.thdList.countP fun th => !th.needToTerminate : ℕ) ∧
      (s.pool.thdList.length : ℤ) ≤ max 10 minThdNum := by
  have hrun : sampleActs.foldlM step (init (new 10)) = some sampleEnd := rfl
  obtain ⟨s, hs, -, hpool⟩ := System.exists_use_run (Runs.run_of_foldlM hrun)
  exact ⟨s, hs, by rw [hpool]; rfl, run_size hs⟩

end

end ThreadPool

end BackendStudy
