import BackendStudy.Lib.Runs
import Mathlib.Algebra.Order.Ring.Int
import Mathlib.Logic.Function.Iterate

/-!
# The thread pool of `ThreadPool.cpp`

The pool keeps a list of tasks and a list of threads, under one mutex and one condition
variable. A thread waits for a task or to be told to terminate, takes a task, runs it without
the mutex, and comes back to the wait. The pool doubles its threads when all of them are busy
and tasks are left, and marks half of them for termination when there is nothing to do.

The critical sections are the steps (`BackendStudy.ThreadPool.step`): `acceptATask`, with the
waiter that `notify_one` chooses; a thread that gets the mutex, at its start or after it has
been woken; and a thread whose task is done. A thread goes from each of the last two to the
next wait, or to its end, or to the run of a task (`BackendStudy.ThreadPool.threadLoop`).
Threads are told apart by the order of their creation, as by the pointers of the source, and
belong to the list from their creation to their end. The destructor, which waits on the same
condition variable, is added in `BackendStudy.ThreadPool.System`.
-/

namespace BackendStudy

/-- What a thread is doing. -/
inductive ThreadState (α : Type*)
  /-- It has been created, and has not had the mutex yet. -/
  | started
  /-- It waits on the condition variable. -/
  | blocked
  /-- It has been notified, and has not got the mutex back yet. -/
  | woken
  /-- It runs a task. -/
  | running (task : α)
  deriving DecidableEq

/-- `Thread`. -/
structure Thread (α : Type*) where
  /-- Which thread it is. -/
  num : ℕ
  /-- It has been told to terminate. -/
  needToTerminate : Bool
  /-- What it is doing. -/
  state : ThreadState α
  deriving DecidableEq

/-- `Thread::setToTerminate`. -/
def Thread.setToTerminate {α : Type*} (t : Thread α) : Thread α :=
  { t with needToTerminate := true }

/-- `ThreadPool`. -/
structure ThreadPool (α : Type*) where
  /-- The tasks that no thread has taken yet. -/
  taskList : List α
  /-- The threads. -/
  thdList : List (Thread α)
  /-- The largest number of threads to grow to. -/
  maxThdNum : ℤ
  /-- How many threads run a task. -/
  busyThdNum : ℤ
  /-- How many threads have been created. -/
  created : ℕ
  deriving DecidableEq

namespace ThreadPool

variable {α : Type*}

/-- `m_min_thd_num`. -/
def minThdNum : ℤ := 4

/-- The constructor. -/
def new (maxThreadNum : ℤ) : ThreadPool α where
  taskList := []
  thdList := []
  maxThdNum := maxThreadNum
  busyThdNum := 0
  created := 0

/-- The thread that a pointer leads to. -/
def thread (p : ThreadPool α) (t : ℕ) : Option (Thread α) := p.thdList.find? (·.num = t)

/-- A thread goes on to something else. -/
def setState (p : ThreadPool α) (t : ℕ) (state : ThreadState α) : ThreadPool α :=
  { p with
    thdList := p.thdList.map fun th => if th.num = t then { th with state := state } else th }

/-! ### Growing and shrinking -/

/-- `createAThread`. -/
def createAThread (p : ThreadPool α) : ThreadPool α :=
  { p with thdList := p.thdList ++ [⟨p.created, false, .started⟩], created := p.created + 1 }

/-- `init`. -/
def init (p : ThreadPool α) : ThreadPool α := createAThread^[minThdNum.toNat] p

/-- The loop of `terminateSomeThread`. -/
def setFirstToTerminate : ℕ → List (Thread α) → List (Thread α)
  | 0, ts => ts
  | _ + 1, [] => []
  | n + 1, t :: ts => t.setToTerminate :: setFirstToTerminate n ts

/-- `terminateSomeThread`: with what it returns, the number of threads it has chosen. -/
def terminateSomeThread (p : ThreadPool α) : ThreadPool α × ℤ :=
  if p.taskList = [] ∧ p.busyThdNum = 0 then
    let needThreadNum := max ((p.thdList.length / 2 : ℕ) : ℤ) minThdNum
    let terminateNum := p.thdList.length - needThreadNum
    ({ p with thdList := setFirstToTerminate terminateNum.toNat p.thdList }, terminateNum)
  else (p, 0)

/-- `activeSomeThread`: with what it returns, the number of new threads. There are fewer than
`2 ^ 30` threads, of which the double is an `int`. -/
def activeSomeThread (p : ThreadPool α) : ThreadPool α × ℤ :=
  if p.busyThdNum ≥ p.thdList.length ∧ p.taskList.length ≥ p.thdList.length / 2 then
    let needThreadNum := min (2 * (p.thdList.length : ℤ)) p.maxThdNum - p.thdList.length
    (createAThread^[needThreadNum.toNat] p, needThreadNum)
  else (p, 0)

/-! ### The critical sections -/

/-- `acceptATask`, which wakes the waiter that `notify_one` has chosen, if there is one. -/
def acceptATask (p : ThreadPool α) (task : α) (waiter : Option ℕ) : ThreadPool α :=
  let p := { p with taskList := p.taskList ++ [task] }
  match waiter with
  | some w => p.setState w .woken
  | none => p

/-- The end of a thread. The destructor is told when no thread is left. -/
def removeThread (p : ThreadPool α) (t : ℕ) : ThreadPool α :=
  { p with thdList := p.thdList.filter (·.num ≠ t) }

/-- The loop of `thread_function` from the wait on, until the thread gives the mutex back: in
the wait, at its end, or to run the task it has taken. -/
def threadLoop (p : ThreadPool α) (t : ℕ) : ThreadPool α :=
  match p.thread t with
  | none => p
  | some th =>
    if th.needToTerminate then p.removeThread t
    else
      match p.taskList with
      | [] => p.setState t .blocked
      | task :: rest =>
        let p := { p with taskList := rest, busyThdNum := p.busyThdNum + 1 }
        (p.setState t (.running task)).activeSomeThread.1

/-- What a thread does to the pool when its task is done, before it goes back to the loop. -/
def endTask (p : ThreadPool α) : ThreadPool α :=
  let p := { p with busyThdNum := p.busyThdNum - 1 }
  p.terminateSomeThread.1

/-- The loop of `thread_function` from the end of the task on. -/
def taskDone (p : ThreadPool α) (t : ℕ) : ThreadPool α := p.endTask.threadLoop t

/-! ### The destructor -/

/-- The first part of the destructor: all threads are told to terminate, and all that wait are
notified. -/
def terminateAll (p : ThreadPool α) : ThreadPool α :=
  { p with
    thdList := p.thdList.map fun th =>
      match th.state with
      | .blocked => { th with needToTerminate := true, state := .woken }
      | _ => th.setToTerminate }

/-- The last part of the destructor: what is left of the tasks is deleted. -/
def clearTasks (p : ThreadPool α) : ThreadPool α := { p with taskList := [] }

/-! ### Runs -/

/-- A step of the pool. -/
inductive Act (α : Type*)
  /-- A task is accepted, and a waiter notified. -/
  | acceptATask (task : α) (waiter : Option ℕ)
  /-- A thread gets the mutex, at its start or after it has been woken. -/
  | getMutex (t : ℕ)
  /-- A thread has done its task and gets the mutex. -/
  | taskDone (t : ℕ)

/-- What `notify_one` may choose: any thread that waits, and none only if none does. -/
def CanNotify (p : ThreadPool α) : Option ℕ → Prop
  | some w => ∃ th ∈ p.thdList, th.num = w ∧ th.state = .blocked
  | none => ∀ th ∈ p.thdList, th.state ≠ .blocked

instance [DecidableEq α] (p : ThreadPool α) : ∀ waiter, Decidable (p.CanNotify waiter)
  | some w => inferInstanceAs (Decidable (∃ th ∈ p.thdList, th.num = w ∧ th.state = .blocked))
  | none => inferInstanceAs (Decidable (∀ th ∈ p.thdList, th.state ≠ .blocked))

/-- **One step of the pool**, where it can be taken. -/
def step [DecidableEq α] (p : ThreadPool α) : Act α → Option (ThreadPool α)
  | .acceptATask task waiter =>
    if p.CanNotify waiter then some (p.acceptATask task waiter) else none
  | .getMutex t =>
    match (p.thread t).map Thread.state with
    | some .started => some (p.threadLoop t)
    | some .woken => some (p.threadLoop t)
    | _ => none
  | .taskDone t =>
    match (p.thread t).map Thread.state with
    | some (.running _) => some (p.taskDone t)
    | _ => none

/-- The steps as a relation. -/
def Step [DecidableEq α] (p : ThreadPool α) (a : Act α) (p' : ThreadPool α) : Prop :=
  p.step a = some p'

end ThreadPool

end BackendStudy
