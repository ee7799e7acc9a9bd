import BackendStudy.ThreadPool.Threads

/-!
# What becomes of the tasks

A pool from its construction to the end of its destructor (`BackendStudy.ThreadPool.System`),
with a record of the tasks that have been accepted, started, finished and deleted. The
destructor marks all threads, and waits on the condition variable of the pool until the list of
threads is empty. Any wait may also end on its own.

Every accepted task is in one place (`BackendStudy.ThreadPool.Accounted`): it is queued, or run
by one thread, or finished, or deleted by the destructor. Tasks are started in the order in
which they were accepted, and none is once the threads are marked
(`BackendStudy.ThreadPool.run_accounted`).
-/

namespace BackendStudy

/-- The task that a thread runs. -/
def ThreadState.task? {α : Type*} : ThreadState α → Option α
  | .running task => some task
  | _ => none

namespace ThreadPool

variable {α : Type*}

/-! ### The life of a pool -/

/-- Where the destructor is. -/
inductive Phase
  /-- It has not been called. -/
  | alive
  /-- It waits on the condition variable. -/
  | waiting
  /-- It has been notified, and has not got the mutex back yet. -/
  | woken
  /-- It is done. -/
  | destroyed
  deriving DecidableEq

/-- A waiter of the condition variable. -/
inductive Waiter
  /-- A thread of the pool. -/
  | thread (t : ℕ)
  /-- The destructor. -/
  | destructor

/-- A pool, its destructor, and what has become of its tasks. -/
structure System (α : Type*) where
  /-- The pool. -/
  pool : ThreadPool α
  /-- The destructor. -/
  phase : Phase
  /-- The accepted tasks, in order. -/
  accepted : List α
  /-- The tasks that a thread has taken, in order. -/
  started : List α
  /-- The tasks that have been run. -/
  finished : List α
  /-- The tasks that the destructor has deleted. -/
  deleted : List α

/-- What happens in the life of a pool. -/
inductive Event (α : Type*)
  /-- `init`. -/
  | init
  /-- `acceptATask`, and the waiter that is notified. -/
  | acceptATask (task : α) (waiter : Option Waiter)
  /-- A thread gets the mutex, at its start or after it has been woken. -/
  | getMutex (t : ℕ)
  /-- A thread has done its task and gets the mutex. -/
  | taskDone (t : ℕ)
  /-- The wait of a thread ends on its own. -/
  | wake (t : ℕ)
  /-- The destructor is called. -/
  | destroy
  /-- The wait of the destructor ends on its own. -/
  | wakeDestructor
  /-- The destructor gets the mutex back. -/
  | resume

/-- The task that a thread takes in its loop. -/
def taken (p : ThreadPool α) (t : ℕ) : Option α :=
  match p.thread t with
  | some th => if th.needToTerminate then none else p.taskList.head?
  | none => none

namespace System

/-- What `notify_one` may choose. -/
def CanNotify (s : System α) : Option Waiter → Prop
  | some (.thread w) => ∃ th ∈ s.pool.thdList, th.num = w ∧ th.state = .blocked
  | some .destructor => s.phase = .waiting
  | none => (∀ th ∈ s.pool.thdList, th.state ≠ .blocked) ∧ s.phase ≠ .waiting

/-- The pool after a new task, and the destructor if it has been chosen. -/
def accept (s : System α) (task : α) : Option Waiter → System α
  | some (.thread w) =>
    { s with pool := s.pool.acceptATask task (some w), accepted := s.accepted ++ [task] }
  | some .destructor =>
    { s with pool := s.pool.acceptATask task none, phase := .woken,
             accepted := s.accepted ++ [task] }
  | none => { s with pool := s.pool.acceptATask task none, accepted := s.accepted ++ [task] }

/-- The loop of a thread, from a state of the pool on. The last thread notifies the
destructor. -/
def loop (s : System α) (p : ThreadPool α) (t : ℕ) : System α :=
  { s with
    pool := p.threadLoop t
    phase := if (p.threadLoop t).thdList = [] ∧ s.phase = .waiting then .woken else s.phase
    started := s.started ++ (p.taken t).toList }

/-- The destructor looks whether there are threads, and waits or deletes the tasks. -/
def await (s : System α) : System α :=
  if s.pool.thdList = [] then
    { s with pool := s.pool.clearTasks, phase := .destroyed,
             deleted := s.deleted ++ s.pool.taskList }
  else { s with phase := .waiting }

/-- A pool that has been constructed. -/
def new (maxThreadNum : ℤ) : System α where
  pool := ThreadPool.new maxThreadNum
  phase := .alive
  accepted := []
  started := []
  finished := []
  deleted := []

/-- **One step in the life of a pool.** `init` and the destructor are called before the
destructor has been, and `acceptATask` as long as the destructor waits, also by a task. -/
inductive Step : System α → Event α → System α → Prop
  /-- `init`. -/
  | init {s : System α} : s.phase = .alive → Step s .init { s with pool := s.pool.init }
  /-- `acceptATask`. -/
  | acceptATask {s : System α} {task : α} {waiter : Option Waiter} : s.phase ≠ .destroyed →
      s.CanNotify waiter → Step s (.acceptATask task waiter) (s.accept task waiter)
  /-- A thread starts, or goes on after a wait. -/
  | getMutex {s : System α} {t : ℕ} {th : Thread α} : s.pool.thread t = some th →
      th.state = .started ∨ th.state = .woken → Step s (.getMutex t) (s.loop s.pool t)
  /-- A thread has done its task. -/
  | taskDone {s : System α} {t : ℕ} {th : Thread α} {task : α} : s.pool.thread t = some th →
      th.state = .running task →
      Step s (.taskDone t)
        { s.loop s.pool.endTask t with finished := s.finished ++ [task] }
  /-- The wait of a thread ends on its own. -/
  | wake {s : System α} {t : ℕ} {th : Thread α} : s.pool.thread t = some th →
      th.state = .blocked → Step s (.wake t) { s with pool := s.pool.setState t .woken }
  /-- The destructor is called. -/
  | destroy {s : System α} : s.phase = .alive →
      Step s .destroy { s with pool := s.pool.terminateAll }.await
  /-- The wait of the destructor ends on its own. -/
  | wakeDestructor {s : System α} : s.phase = .waiting →
      Step s .wakeDestructor { s with phase := .woken }
  /-- The destructor goes on after a wait. -/
  | resume {s : System α} : s.phase = .woken → Step s .resume s.await

end System

/-! ### Running tasks -/

/-- The tasks that are being run, each by a thread of its own. -/
def running (p : ThreadPool α) : List α := p.thdList.filterMap (·.state.task?)

section

variable {p q : ThreadPool α} {t : ℕ} {th : Thread α}

theorem filterMap_cons_toList {β : Type*} (f : α → Option β) (a : α) (as : List α) :
    (a :: as).filterMap f = (f a).toList ++ as.filterMap f := by
  cases hf : f a <;> simp [hf]

/-- A thread in its place in the list. -/
theorem Numbered.exists_split (h : Numbered p) (hth : p.thread t = some th) :
    ∃ A B, p.thdList = A ++ th :: B ∧ (∀ u ∈ A, u.num ≠ t) ∧ ∀ u ∈ B, u.num ≠ t := by
  obtain ⟨hmem, rfl⟩ := mem_of_thread hth
  obtain ⟨A, B, hl⟩ := List.append_of_mem hmem
  have hnodup := h.nodup
  rw [hl, List.map_append, List.map_cons, List.nodup_middle, List.nodup_cons,
    List.mem_append, not_or] at hnodup
  refine ⟨A, B, hl, fun u hu he => ?_, fun u hu he => ?_⟩
  · exact hnodup.1.1 (he ▸ List.mem_map_of_mem hu)
  · exact hnodup.1.2 (he ▸ List.mem_map_of_mem hu)

/-- A thread that goes on to something else trades its task for another one. -/
theorem running_setState (h : Numbered p) (hth : p.thread t = some th) (state : ThreadState α) :
    (th.state.task?.toList ++ running (p.setState t state)).Perm
      (state.task?.toList ++ running p) := by
  obtain ⟨A, B, hl, hA, hB⟩ := h.exists_split hth
  have hsame : ∀ l : List (Thread α), (∀ u ∈ l, u.num ≠ t) →
      l.map (fun u => if u.num = t then { u with state := state } else u) = l := by
    intro l hne
    exact (List.map_congr_left fun u hu => if_neg (hne u hu)).trans (List.map_id' l)
  have hset : (p.setState t state).thdList = A ++ { th with state := state } :: B := by
    rw [setState, hl, List.map_append, List.map_cons, hsame A hA, hsame B hB,
      if_pos (mem_of_thread hth).2]
  classical
  rw [List.perm_iff_count]
  intro x
  simp only [running, hset, hl, List.filterMap_append, filterMap_cons_toList, List.count_append]
  omega

/-- A thread that ends gives its task up. -/
theorem running_removeThread (h : Numbered p) (hth : p.thread t = some th) :
    (th.state.task?.toList ++ running (p.removeThread t)).Perm (running p) := by
  obtain ⟨A, B, hl, hA, hB⟩ := h.exists_split hth
  have hsame : ∀ l : List (Thread α), (∀ u ∈ l, u.num ≠ t) → l.filter (·.num ≠ t) = l := by
    intro l hne
    exact List.filter_eq_self.mpr fun u hu => by simpa using hne u hu
  have hrem : (p.removeThread t).thdList = A ++ B := by
    rw [removeThread, hl, List.filter_append, List.filter_cons_of_neg
      (by simpa using (mem_of_thread hth).2), hsame A hA, hsame B hB]
  classical
  rw [List.perm_iff_count]
  intro x
  simp only [running, hrem, hl, List.filterMap_append, filterMap_cons_toList, List.count_append]
  omega

/-- Two pools with the same tasks, waiting and running. -/
structure SameTasks (p q : ThreadPool α) : Prop where
  queued : q.taskList = p.taskList
  running : running q = running p
  busy : q.busyThdNum = p.busyThdNum

theorem sameTasks_createAThread (p : ThreadPool α) : SameTasks p p.createAThread := by
  refine ⟨rfl, ?_, rfl⟩
  rw [running, createAThread, List.filterMap_append]
  exact List.append_nil _

theorem SameTasks.trans {r : ThreadPool α} (h : SameTasks p q) (h' : SameTasks q r) :
    SameTasks p r :=
  ⟨h'.queued.trans h.queued, h'.running.trans h.running, h'.busy.trans h.busy⟩

theorem sameTasks_activeSomeThread (p : ThreadPool α) : SameTasks p p.activeSomeThread.1 :=
  activeSomeThread_induct (P := SameTasks p) (fun q h => h.trans (sameTasks_createAThread q))
    ⟨rfl, rfl, rfl⟩

theorem sameTasks_init (p : ThreadPool α) : SameTasks p p.init :=
  iterate_createAThread (P := SameTasks p) (fun q h => h.trans (sameTasks_createAThread q))
    ⟨rfl, rfl, rfl⟩ _

/-- **The accounts of the loop**: the thread gives up what it has run and takes the first task
of the queue, or none. -/
theorem threadLoop_accounts (h : Numbered p) (hth : p.thread t = some th) :
    p.taskList = (p.taken t).toList ++ (p.threadLoop t).taskList ∧
      (th.state.task?.toList ++ running (p.threadLoop t)).Perm
        ((p.taken t).toList ++ running p) ∧
      (p.threadLoop t).busyThdNum = p.busyThdNum + (p.taken t).toList.length := by
  rcases threadLoop_cases hth with ⟨hm, he⟩ | ⟨hm, hl, he⟩ | ⟨hm, task, rest, hl, he⟩
  · have htaken : p.taken t = none := by simp [taken, hth, hm]
    rw [he, htaken]
    exact ⟨rfl, running_removeThread h hth, (add_zero _).symm⟩
  · have htaken : p.taken t = none := by simp [taken, hth, hm, hl]
    rw [he, htaken]
    exact ⟨rfl, running_setState h hth .blocked, (add_zero _).symm⟩
  · have htaken : p.taken t = some task := by simp [taken, hth, hm, hl]
    set q : ThreadPool α := { p with taskList := rest, busyThdNum := p.busyThdNum + 1 } with hq
    have hsame := sameTasks_activeSomeThread (q.setState t (.running task))
    rw [he, htaken, hsame.queued, hsame.running, hsame.busy]
    have hnq : Numbered q := ⟨h.nodup, h.created⟩
    exact ⟨hl, running_setState hnq hth (.running task), rfl⟩

theorem mem_threadLoop (hm : ∀ u ∈ p.thdList, u.needToTerminate = true)
    (hth : p.thread t = some th) : p.taken t = none ∧
      ∀ u ∈ (p.threadLoop t).thdList, u.needToTerminate = true := by
  have hth' := hm th (mem_of_thread hth).1
  refine ⟨by simp [taken, hth, hth'], ?_⟩
  rcases threadLoop_cases hth with ⟨-, he⟩ | ⟨hf, -⟩ | ⟨hf, -⟩
  · rw [he]
    exact fun u hu => hm u (List.mem_filter.mp hu).1
  · exact absurd hth' (by rw [hf]; nofun)
  · exact absurd hth' (by rw [hf]; nofun)

theorem running_terminateSomeThread (p : ThreadPool α) :
    running p.terminateSomeThread.1 = running p := by
  rw [terminateSomeThread]
  split_ifs
  · simp only [running, setFirstToTerminate_eq, List.filterMap_append, List.filterMap_map]
    exact List.filterMap_append.symm.trans (congrArg _ (List.take_append_drop _ _))
  · rfl

theorem taskList_terminateSomeThread (p : ThreadPool α) :
    p.terminateSomeThread.1.taskList = p.taskList ∧
      p.terminateSomeThread.1.busyThdNum = p.busyThdNum := by
  rw [terminateSomeThread]
  split_ifs <;> exact ⟨rfl, rfl⟩

/-- A thread of the list after some have been marked. -/
theorem mem_terminateSomeThread {u : Thread α} (hu : u ∈ p.terminateSomeThread.1.thdList) :
    ∃ th ∈ p.thdList, u.num = th.num ∧ u.state = th.state ∧
      (th.needToTerminate = true → u.needToTerminate = true) := by
  rw [terminateSomeThread] at hu
  split_ifs at hu
  · simp only [setFirstToTerminate_eq] at hu
    rcases List.mem_append.mp hu with hu | hu
    · obtain ⟨th, hth, rfl⟩ := List.mem_map.mp hu
      exact ⟨th, List.mem_of_mem_take hth, rfl, rfl, fun _ => rfl⟩
    · exact ⟨u, List.mem_of_mem_drop hu, rfl, rfl, id⟩
  · exact ⟨u, hu, rfl, rfl, id⟩

/-- The thread that has done its task is still there after the marking. -/
theorem Numbered.thread_endTask (h : Numbered p) (hth : p.thread t = some th) :
    ∃ u, p.endTask.thread t = some u ∧ u.state = th.state := by
  obtain ⟨hmem, rfl⟩ := mem_of_thread hth
  set q : ThreadPool α := { p with busyThdNum := p.busyThdNum - 1 } with hq
  have hnum : th.num ∈ p.endTask.thdList.map Thread.num := by
    have hmap : p.endTask.thdList.map Thread.num = p.thdList.map Thread.num :=
      nums_terminateSomeThread q
    rw [hmap]
    exact List.mem_map_of_mem hmem
  obtain ⟨u, hu, he⟩ := List.mem_map.mp hnum
  obtain ⟨v, hv, hnv, hsv, -⟩ := mem_terminateSomeThread hu
  have hvth : v = th := h.eq_of_num hv hmem (hnv.symm.trans he)
  exact ⟨u, h.endTask.thread_eq hu he, hvth ▸ hsv⟩

end

/-! ### The invariant -/

/-- **The accounts of a pool.** -/
structure Accounts (s : System α) : Prop where
  numbered : Numbered s.pool
  order : s.accepted = s.started ++ s.deleted ++ s.pool.taskList
  fate : s.started.Perm (running s.pool ++ s.finished)
  busy : s.pool.busyThdNum = (running s.pool).length
  marked : s.phase ≠ .alive → ∀ th ∈ s.pool.thdList, th.needToTerminate = true
  past : s.phase = .destroyed → s.pool.thdList = []
  undeleted : s.phase ≠ .destroyed → s.deleted = []

section

variable {s s' : System α} {p : ThreadPool α} {t : ℕ} {th : Thread α} {e : Event α}

/-- A loop from a pool in which the task that the thread has run is accounted for. -/
theorem Accounts.loop (h : Accounts s) (hn : Numbered p) (hth : p.thread t = some th)
    (halive : s.phase ≠ .destroyed) (htasks : p.taskList = s.pool.taskList)
    (hrun : running p = running s.pool)
    (hbusy : p.busyThdNum + th.state.task?.toList.length = s.pool.busyThdNum)
    (hmarked : s.phase ≠ .alive → ∀ u ∈ p.thdList, u.needToTerminate = true) :
    Accounts { s.loop p t with finished := s.finished ++ th.state.task?.toList } := by
  obtain ⟨hqueue, hperm, hb⟩ := threadLoop_accounts hn hth
  -- the loop does not bring the pool back to life
  have hphase : (s.loop p t).phase ≠ .alive → s.phase ≠ .alive := by
    rintro hne halive'
    simp [System.loop, halive'] at hne
  have hphase' : (s.loop p t).phase ≠ .destroyed := by
    rw [System.loop]
    simp only
    split_ifs
    · nofun
    · exact halive
  constructor
  · exact hn.threadLoop
  -- the task that is taken moves from the front of the queue to those that have been started
  · change s.accepted = s.started ++ (p.taken t).toList ++ s.deleted ++ (p.threadLoop t).taskList
    rw [h.order, ← htasks, hqueue, h.undeleted halive]
    simp
  · change (s.started ++ (p.taken t).toList).Perm
      (running (p.threadLoop t) ++ (s.finished ++ th.state.task?.toList))
    have hfate := h.fate
    rw [← hrun] at hfate
    classical
    rw [List.perm_iff_count] at hfate hperm ⊢
    -- each task is counted once before and once after
    intro x
    have hx := hfate x
    have hx' := hperm x
    simp only [List.count_append] at hx hx' ⊢
    omega
  · change (p.threadLoop t).busyThdNum = ((running (p.threadLoop t)).length : ℤ)
    have hlen := hperm.length_eq
    have hlen' := h.busy
    rw [← hrun] at hlen'
    simp only [List.length_append] at hlen
    rw [hb]
    omega
  · exact fun hne => (mem_threadLoop (hmarked (hphase hne)) hth).2
  · exact fun hd => absurd hd hphase'
  · exact fun _ => h.undeleted halive

theorem Accounts.alive_of_thread (h : Accounts s) (hth : s.pool.thread t = some th) :
    s.phase ≠ .destroyed := by
  intro hd
  have hmem := (mem_of_thread hth).1
  rw [h.past hd] at hmem
  cases hmem

theorem loop_phase_ne_alive (hne : s.phase ≠ .alive) : (s.loop p t).phase ≠ .alive := by
  rw [System.loop]
  simp only
  split_ifs
  · nofun
  · exact hne

theorem mem_terminateAll {u : Thread α} (hu : u ∈ p.terminateAll.thdList) :
    u.needToTerminate = true := by
  obtain ⟨v, -, rfl⟩ := List.mem_map.mp hu
  split <;> rfl

/-- The threads are marked. -/
theorem Accounts.terminateAll (h : Accounts s) (halive : s.phase = .alive) :
    Accounts { s with pool := s.pool.terminateAll } := by
  have hrun : running s.pool.terminateAll = running s.pool := by
    rw [running, ThreadPool.terminateAll, List.filterMap_map]
    refine List.filterMap_congr fun u _ => ?_
    cases hu : u.state <;> simp [Thread.setToTerminate, ThreadState.task?, hu]
  have hnum : Numbered s.pool.terminateAll := by
    refine h.numbered.of_map ?_ rfl
    rw [ThreadPool.terminateAll, List.map_map]
    refine List.map_congr_left fun u _ => ?_
    cases hu : u.state <;> simp [Thread.setToTerminate, hu]
  refine ⟨hnum, h.order, ?_, ?_, fun hne => absurd halive hne,
    fun hd => absurd (halive.symm.trans hd) (by simp), h.undeleted⟩
  · rw [hrun]
    exact h.fate
  · rw [hrun]
    exact h.busy

/-- The destructor deletes what is queued, or waits. -/
theorem Accounts.await (h : Accounts s) (hne : s.phase ≠ .destroyed)
    (hmarked : ∀ u ∈ s.pool.thdList, u.needToTerminate = true) : Accounts s.await := by
  rw [System.await]
  split_ifs with hempty
  · refine ⟨⟨h.numbered.nodup, h.numbered.created⟩, ?_, h.fate, h.busy, fun _ => hmarked,
      fun _ => hempty, fun hd => absurd rfl hd⟩
    simp only [clearTasks, List.append_nil]
    rw [h.order, List.append_assoc]
  · exact ⟨h.numbered, h.order, h.fate, h.busy, fun _ => hmarked, nofun,
      fun _ => h.undeleted hne⟩

/-- A wait ends. -/
theorem Accounts.wake (h : Accounts s) (hth : s.pool.thread t = some th)
    (hb : th.state = .blocked) : Accounts { s with pool := s.pool.setState t .woken } := by
  have hperm : (running (s.pool.setState t .woken)).Perm (running s.pool) := by
    have hset := running_setState h.numbered hth .woken
    rw [hb] at hset
    exact hset
  refine ⟨h.numbered.setState _, h.order, h.fate.trans (hperm.symm.append_right _),
    by rw [hperm.length_eq]; exact h.busy, fun hne u hu => ?_, fun hd => ?_, h.undeleted⟩
  · obtain ⟨v, hv, rfl⟩ := mem_setState.mp hu
    have hm := h.marked hne v hv
    split_ifs
    · exact hm
    · exact hm
  · exact absurd hd (h.alive_of_thread hth)

theorem Accounts.enqueue (h : Accounts s) (task : α) (hne : s.phase ≠ .destroyed) :
    Accounts { s with
      pool := { s.pool with taskList := s.pool.taskList ++ [task] }
      accepted := s.accepted ++ [task] } := by
  refine ⟨⟨h.numbered.nodup, h.numbered.created⟩, ?_, h.fate, h.busy, h.marked,
    fun hd => absurd hd hne, h.undeleted⟩
  rw [h.order, List.append_assoc]

theorem Accounts.acceptATask (h : Accounts s) {task : α} {waiter : Option Waiter}
    (hne : s.phase ≠ .destroyed) (hw : s.CanNotify waiter) :
    Accounts (s.accept task waiter) := by
  have hq := h.enqueue task hne
  match waiter with
  | none => exact hq
  | some .destructor =>
    have hphase : s.phase = .waiting := hw
    exact ⟨hq.numbered, hq.order, hq.fate, hq.busy,
      fun _ => hq.marked (show s.phase ≠ .alive by rw [hphase]; nofun), nofun,
      fun _ => hq.undeleted hne⟩
  | some (.thread w) =>
    obtain ⟨th, hth, hnum, hb⟩ := hw
    exact hq.wake (hq.numbered.thread_eq hth hnum) hb

theorem accounts_new (maxThreadNum : ℤ) : Accounts (System.new maxThreadNum : System α) :=
  ⟨numbered_new maxThreadNum, rfl, List.Perm.refl _, rfl, fun hne => absurd rfl hne, nofun,
    fun _ => rfl⟩

/-- **Every step keeps the accounts.** -/
theorem Accounts.step (h : Accounts s) (hs : System.Step s e s') : Accounts s' := by
  cases hs with
  | init halive =>
    have hsame := sameTasks_init s.pool
    refine ⟨h.numbered.iterate_createAThread _, ?_, ?_, ?_, fun hne => absurd halive hne,
      fun hd => absurd (halive.symm.trans hd) (by simp), h.undeleted⟩
    · rw [hsame.queued]
      exact h.order
    · rw [hsame.running]
      exact h.fate
    · rw [hsame.running, hsame.busy]
      exact h.busy
  | acceptATask hne hw => exact h.acceptATask hne hw
  | @getMutex t th hth hstate =>
    -- a thread that waits for the mutex has no task
    have hnone : th.state.task? = none := by
      rcases hstate with hstate | hstate <;> rw [hstate] <;> rfl
    have hloop := h.loop h.numbered hth (h.alive_of_thread hth) rfl rfl (by simp [hnone]) h.marked
    rw [hnone, Option.toList_none, List.append_nil] at hloop
    exact hloop
  | @taskDone t th task hth hstate =>
    obtain ⟨u, hu, hus⟩ := h.numbered.thread_endTask hth
    have htask : u.state.task? = some task := by rw [hus, hstate]; rfl
    -- `taskDone` counts the thread as free and may mark another one before the loop goes on
    set q : ThreadPool α := { s.pool with busyThdNum := s.pool.busyThdNum - 1 } with hq
    have hloop := h.loop h.numbered.endTask hu (h.alive_of_thread hth)
      (taskList_terminateSomeThread q).1 (running_terminateSomeThread q)
      (by
        rw [htask, endTask, (taskList_terminateSomeThread q).2]
        simp [hq])
      (fun hne v hv => by
        obtain ⟨w, hw, -, -, hvw⟩ := mem_terminateSomeThread hv
        exact hvw (h.marked hne w hw))
    rw [htask] at hloop
    exact hloop
  | wake hth hb => exact h.wake hth hb
  | destroy halive =>
    have hne : s.phase ≠ .destroyed := by
      rw [halive]
      nofun
    exact (h.terminateAll halive).await hne fun u hu => mem_terminateAll hu
  | wakeDestructor hw =>
    exact ⟨h.numbered, h.order, h.fate, h.busy, fun _ => h.marked (by rw [hw]; nofun), nofun,
      fun _ => h.undeleted (by rw [hw]; nofun)⟩
  | resume hw => exact h.await (by rw [hw]; nofun) (h.marked (by rw [hw]; nofun))

/-- **No thread starts a task once the threads are marked.** -/
theorem Accounts.started_eq (h : Accounts s) (hs : System.Step s e s') (hne : s.phase ≠ .alive) :
    s'.started = s.started ∧ s'.phase ≠ .alive := by
  cases hs with
  | init halive => exact absurd halive hne
  | @acceptATask task waiter hphase hw =>
    match waiter with
    | none => exact ⟨rfl, hne⟩
    | some .destructor => exact ⟨rfl, nofun⟩
    | some (.thread w) => exact ⟨rfl, hne⟩
  | @getMutex t th hth hstate =>
    refine ⟨?_, loop_phase_ne_alive hne⟩
    rw [System.loop, (mem_threadLoop (h.marked hne) hth).1]
    exact List.append_nil _
  | @taskDone t th task hth hstate =>
    obtain ⟨u, hu, -⟩ := h.numbered.thread_endTask hth
    refine ⟨?_, loop_phase_ne_alive hne⟩
    have hmarked : ∀ v ∈ s.pool.endTask.thdList, v.needToTerminate = true := by
      intro v hv
      obtain ⟨w, hw, -, -, hvw⟩ := mem_terminateSomeThread hv
      exact hvw (h.marked hne w hw)
    rw [System.loop, (mem_threadLoop hmarked hu).1]
    exact List.append_nil _
  | wake hth hb => exact ⟨rfl, hne⟩
  | destroy halive => exact absurd halive hne
  | wakeDestructor hw => exact ⟨rfl, nofun⟩
  | resume hw =>
    rw [System.await]
    split_ifs <;> exact ⟨rfl, nofun⟩

/-! ### Runs -/

/-- **What becomes of the tasks.** -/
structure Accounted (s : System α) : Prop where
  /-- Every accepted task is queued, run by a thread, finished or deleted. -/
  places : s.accepted.Perm (s.pool.taskList ++ running s.pool ++ s.finished ++ s.deleted)
  /-- It is in one of these places only, and run by one thread only. -/
  once : s.accepted.Nodup →
    (s.pool.taskList ++ running s.pool ++ s.finished ++ s.deleted).Nodup
  /-- The tasks that have been started are those that are run or finished. -/
  fate : s.started.Perm (running s.pool ++ s.finished)
  /-- Tasks are started in the order in which they were accepted. -/
  order : s.started <+: s.accepted
  /-- The busy threads are counted. -/
  busy : s.pool.busyThdNum = (running s.pool).length
  /-- No thread runs a task, or is left, when the destructor is past its wait. -/
  past : s.phase = .destroyed → running s.pool = [] ∧ s.pool.thdList = []

theorem Accounts.accounted (h : Accounts s) : Accounted s := by
  have hplaces : s.accepted.Perm
      (s.pool.taskList ++ running s.pool ++ s.finished ++ s.deleted) := by
    have hfate := h.fate
    rw [h.order]
    classical
    rw [List.perm_iff_count] at hfate ⊢
    intro x
    have hx := hfate x
    simp only [List.count_append] at hx ⊢
    omega
  refine ⟨hplaces, hplaces.nodup_iff.mp, h.fate, ?_, h.busy, fun hd => ⟨?_, h.past hd⟩⟩
  · rw [h.order, List.append_assoc]
    exact List.prefix_append _ _
  · rw [running, h.past hd]
    rfl

/-- **The accounts of every run**, from the construction of a pool to the end of its destructor.
Once the destructor has marked the threads, no task is started in whatever follows. -/
theorem run_accounted {maxThreadNum : ℤ} {es : List (Event α)}
    (h : Runs.Run System.Step (System.new maxThreadNum) es s) :
    Accounted s ∧ (s.phase ≠ .alive → ∀ es' s', Runs.Run System.Step s es' s' →
      s'.started = s.started) := by
  have ha : Accounts s := h.invariant (accounts_new maxThreadNum) fun _ _ _ ha hs => ha.step hs
  refine ⟨ha.accounted, fun hne es' s' hrun => ?_⟩
  suffices hrest : Accounts s' ∧ s'.phase ≠ .alive ∧ s'.started = s.started from hrest.2.2
  induction hrun with
  | nil => exact ⟨ha, hne, rfl⟩
  | snoc _ hs ih =>
    obtain ⟨ha', hne', hstarted⟩ := ih
    obtain ⟨he, hne''⟩ := ha'.started_eq hs hne'
    exact ⟨ha'.step hs, hne'', he.trans hstarted⟩

/-- A task is accepted and taken, the destructor is called while it runs, and the threads end. -/
theorem run_accounted_sample : ∃ s : System ℕ,
    Runs.Run System.Step (System.new 10) [.init, .acceptATask 5 none, .getMutex 0, .destroy,
      .taskDone 0, .getMutex 1, .getMutex 2, .getMutex 3, .resume] s ∧
    s.phase = .destroyed ∧ s.finished = [5] ∧ Accounted s := by
  have h₀ : Runs.Run System.Step (System.new 10 : System ℕ) [] (System.new 10) := .nil
  have h₁ := h₀.snoc (i := Event.init) (.init rfl)
  have h₂ := h₁.snoc (i := Event.acceptATask 5 none) (.acceptATask nofun ⟨by decide, nofun⟩)
  have h₃ := h₂.snoc (i := Event.getMutex 0) (.getMutex rfl (Or.inl rfl))
  have h₄ := h₃.snoc (i := Event.destroy) (.destroy rfl)
  have h₅ := h₄.snoc (i := Event.taskDone 0) (.taskDone rfl rfl)
  have h₆ := h₅.snoc (i := Event.getMutex 1) (.getMutex rfl (Or.inl rfl))
  have h₇ := h₆.snoc (i := Event.getMutex 2) (.getMutex rfl (Or.inl rfl))
  have h₈ := h₇.snoc (i := Event.getMutex 3) (.getMutex rfl (Or.inl rfl))
  have h₉ := h₈.snoc (i := Event.resume) (.resume rfl)
  exact ⟨_, h₉, rfl, rfl, (run_accounted h₉).1⟩

end

end ThreadPool

end BackendStudy
