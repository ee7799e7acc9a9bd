import BackendStudy.Lib.Runs
import Mathlib.Algebra.Order.Ring.Int

/-!
# The connection pool of `ConnPool.cpp`

The pool keeps the free and the busy connections in two lists, under one mutex. A client takes
a connection from the front of the free ones, which the pool makes if it has none and may make
more, and waits on the condition variable, with a bound on the time or without, if it may not.
Connections are their addresses; what `newFreeConn` makes is at an address where no connection
of the pool is, and its `init` may fail.

The critical sections are the steps (`BackendStudy.ConnPool.Step`). A wait gives the mutex back
and takes it again, after a notification, on its own, or at the end of its time.
-/

namespace BackendStudy

/-- `ConnPool`. -/
structure ConnPool where
  /-- How many connections have been made. -/
  curConn : ℤ
  /-- How many may be made. -/
  maxConn : ℤ
  /-- The free connections. -/
  freeList : List ℕ
  /-- The connections that clients have. -/
  busyList : List ℕ
  /-- The pool is being destroyed. -/
  abort : Bool

namespace ConnPool

/-- `min_conn`. -/
def minConn : ℕ := 2

/-- The constructor. -/
def new (maxConn : ℤ) : ConnPool where
  curConn := 0
  maxConn := maxConn
  freeList := []
  busyList := []
  abort := false

/-- A connection whose `init` has succeeded is added to the free ones. -/
def addFree (p : ConnPool) (conn : ℕ) : ConnPool :=
  { p with freeList := p.freeList ++ [conn], curConn := p.curConn + 1 }

/-- The loop of `init`, by the rounds that are left, on the connections that `newFreeConn` makes
with what their `init` returns. -/
def initLoop (made : ℕ → ℕ × ℤ) : ℕ → ConnPool → ConnPool × ℤ
  | 0, p => (p, 0)
  | n + 1, p =>
    if (made n).2 ≠ 0 then (p, (made n).2) else initLoop made n (p.addFree (made n).1)

/-- `init`. -/
def init (p : ConnPool) (made : ℕ → ℕ × ℤ) : ConnPool × ℤ := initLoop made minConn p

/-! ### The critical sections -/

/-- How a critical section of `takeConn` ends. -/
inductive Outcome
  /-- `takeConn` returns a connection. -/
  | conn (conn : ℕ)
  /-- It returns `nullptr`. -/
  | null
  /-- It waits. -/
  | wait

/-- The last part of `takeConn`, which has no result if there is no front to take. -/
def takeFront (p : ConnPool) : Option (ConnPool × Outcome) :=
  if p.abort then some (p, .null)
  else
    match p.freeList with
    | [] => none
    | conn :: rest =>
      some ({ p with freeList := rest, busyList := p.busyList ++ [conn] }, .conn conn)

/-- The condition of the waits. -/
def condition (p : ConnPool) : Bool := !p.freeList.isEmpty || p.abort

/-- `takeConn` up to its wait or its end, on the connection that `newFreeConn` makes and what
its `init` returns. -/
def takeConn (p : ConnPool) (conn : ℕ) (ret : ℤ) : Option (ConnPool × Outcome) :=
  if p.freeList.isEmpty then
    if p.curConn ≥ p.maxConn then
      if p.condition then p.takeFront else some (p, .wait)
    else if ret ≠ 0 then some (p, .null)
    else (p.addFree conn).takeFront
  else p.takeFront

/-- `takeConn` from the end of a wait on, which may be because its time is over. -/
def resume (p : ConnPool) (timedOut : Bool) : Option (ConnPool × Outcome) :=
  if p.condition then p.takeFront
  else if timedOut then some (p, .null)
  else some (p, .wait)

/-- `putConn`: with whether a waiter is notified. -/
def putConn (p : ConnPool) (conn : ℕ) : ConnPool × Bool :=
  if conn ∈ p.busyList then
    ({ p with
      busyList := p.busyList.filter (· ≠ conn)
      freeList := p.freeList ++ [conn] }, true)
  else (p, false)

/-! ### Clients -/

/-- Where a client is. -/
inductive Client
  /-- Outside of `takeConn`. -/
  | idle
  /-- In the wait, with the time it may take. -/
  | waiting (timeoutMs : ℤ)
  /-- Notified, without the mutex yet. -/
  | woken (timeoutMs : ℤ)
  deriving DecidableEq

/-- A pool, its clients, and the connections that have been returned to them and not been put
back. -/
structure System (C : Type*) where
  /-- The pool. -/
  pool : ConnPool
  /-- The clients. -/
  client : C → Client
  /-- Which client has been given which connection. -/
  held : List (C × ℕ)

/-- What happens to a pool. -/
inductive Event (C : Type*)
  /-- A client calls `takeConn`. -/
  | takeConn (c : C) (timeoutMs : ℤ) (conn : ℕ) (ret : ℤ)
  /-- The wait of a client ends on its own. -/
  | wake (c : C)
  /-- A client gets the mutex back after it has been woken. -/
  | resume (c : C)
  /-- The time of a client is over, and it gets the mutex back. -/
  | timeout (c : C)
  /-- Somebody calls `putConn`, and a waiter is notified. -/
  | putConn (conn : ℕ) (waiter : Option C)

variable {C : Type*} [DecidableEq C]

/-- The end of a critical section of `takeConn`. -/
def System.ends (s : System C) (c : C) (timeoutMs : ℤ) : ConnPool × Outcome → System C
  | (p, .conn conn) =>
    { pool := p, client := Function.update s.client c .idle, held := s.held ++ [(c, conn)] }
  | (p, .null) => { s with pool := p, client := Function.update s.client c .idle }
  | (p, .wait) => { s with pool := p, client := Function.update s.client c (.waiting timeoutMs) }

/-- The waiter that `notify_one` has chosen is woken. -/
def System.notify (s : System C) : Option C → System C
  | some c =>
    match s.client c with
    | .waiting timeoutMs => { s with client := Function.update s.client c (.woken timeoutMs) }
    | _ => s
  | none => s

/-- What `notify_one` may choose. -/
def System.CanNotify (s : System C) : Option C → Prop
  | some c => ∃ timeoutMs, s.client c = .waiting timeoutMs
  | none => ∀ c timeoutMs, s.client c ≠ .waiting timeoutMs

/-- **One step of the clients of a pool.** A connection that somebody puts may be any pointer,
of a busy connection or not. -/
inductive Step : System C → Event C → System C → Prop
  /-- A client calls `takeConn`. -/
  | takeConn {s : System C} {c : C} {timeoutMs : ℤ} {conn : ℕ} {ret : ℤ}
      {r : ConnPool × Outcome} : s.client c = .idle →
      conn ∉ s.pool.freeList → conn ∉ s.pool.busyList → s.pool.takeConn conn ret = some r →
      Step s (.takeConn c timeoutMs conn ret) (s.ends c timeoutMs r)
  /-- The wait of a client ends on its own. -/
  | wake {s : System C} {c : C} {timeoutMs : ℤ} : s.client c = .waiting timeoutMs →
      Step s (.wake c) { s with client := Function.update s.client c (.woken timeoutMs) }
  /-- A client goes on after it has been woken. -/
  | resume {s : System C} {c : C} {timeoutMs : ℤ} {r : ConnPool × Outcome} :
      s.client c = .woken timeoutMs → s.pool.resume false = some r →
      Step s (.resume c) (s.ends c timeoutMs r)
  /-- A client goes on because its time is over. -/
  | timeout {s : System C} {c : C} {timeoutMs : ℤ} {r : ConnPool × Outcome} :
      s.client c = .waiting timeoutMs ∨ s.client c = .woken timeoutMs → 0 ≤ timeoutMs →
      s.pool.resume true = some r →
      Step s (.timeout c) (s.ends c timeoutMs r)
  /-- Somebody puts a connection that is busy. -/
  | putConn {s : System C} {conn : ℕ} {waiter : Option C} : (s.pool.putConn conn).2 = true →
      s.CanNotify waiter →
      Step s (.putConn conn waiter)
        ({ s with
          pool := (s.pool.putConn conn).1
          held := s.held.filter (·.2 ≠ conn) }.notify waiter)
  /-- Somebody puts something else. -/
  | putOther {s : System C} {conn : ℕ} : (s.pool.putConn conn).2 = false →
      Step s (.putConn conn none) { s with pool := (s.pool.putConn conn).1 }

/-- A pool on which `init` has run, with no clients yet. -/
def System.start (maxConn : ℤ) (made : ℕ → ℕ × ℤ) : System C where
  pool := ((new maxConn).init made).1
  client _ := .idle
  held := []

end ConnPool

end BackendStudy
