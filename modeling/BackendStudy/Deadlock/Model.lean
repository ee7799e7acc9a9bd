import BackendStudy.Lib.Walk
import BackendStudy.Lib.Runs
import Mathlib.Algebra.Order.Ring.Int

/-!
# The deadlock detector of `deadlock_detector.c`

The detector hooks `pthread_mutex_lock` and `pthread_mutex_unlock`. It keeps a graph with a
vertex for every thread that has ever locked a mutex and a `resource_lock` for every mutex in
use; a thread points to the lock it waits for, and a lock to the thread that holds it. A
separate thread looks for a cycle from time to time.

The two lists are kept in their order, and their elements by the addresses `malloc` gave them
(`BackendStudy.Deadlock.Vertex.ptr`, `BackendStudy.Deadlock.ResourceLock.ptr`), which is what
pointers to them are. The visited marks are used by one search at a time and are kept with
the search. A hook whose assertion fails has no result.

A run of the program interleaves the steps of its threads: before a lock, the lock itself,
after it, the unlock, and after it (`BackendStudy.Deadlock.Step`). The changes of the graph are
made under the mutex of the graph and are one step each.
-/

namespace BackendStudy

namespace Deadlock

/-- `struct vertex`, for a thread. -/
structure Vertex (T : Type*) where
  /-- Its address. -/
  ptr : ℕ
  /-- The thread. -/
  tid : T
  /-- The lock the thread waits for. -/
  waitting : Option ℕ
  deriving DecidableEq

/-- `struct resource_lock`, for a mutex. -/
structure ResourceLock (M : Type*) where
  /-- Its address. -/
  ptr : ℕ
  /-- The vertex of the holder. -/
  holder : Option ℕ
  /-- The mutex. -/
  lock : M
  /-- How many threads hold the mutex or wait for it. -/
  used : ℤ
  deriving DecidableEq

/-- `struct task_graph`: the two lists without their auxiliary first nodes. -/
structure TaskGraph (T M : Type*) where
  /-- The vertices. -/
  vertexList : List (Vertex T)
  /-- The locks. -/
  lockList : List (ResourceLock M)
  deriving DecidableEq

variable {T M : Type*}

namespace TaskGraph

/-- The vertex that a pointer leads to. -/
def vertexAt (g : TaskGraph T M) (p : ℕ) : Option (Vertex T) := g.vertexList.find? (·.ptr = p)

/-- The lock that a pointer leads to. -/
def lockAt (g : TaskGraph T M) (p : ℕ) : Option (ResourceLock M) := g.lockList.find? (·.ptr = p)

/-- A write to a vertex. -/
def setVertex (g : TaskGraph T M) (p : ℕ) (f : Vertex T → Vertex T) : TaskGraph T M :=
  { g with vertexList := g.vertexList.map fun v => if v.ptr = p then f v else v }

/-- A write to a lock. -/
def setLock (g : TaskGraph T M) (p : ℕ) (f : ResourceLock M → ResourceLock M) : TaskGraph T M :=
  { g with lockList := g.lockList.map fun l => if l.ptr = p then f l else l }

end TaskGraph

/-! ### Relations of the graph -/

/-- `add_relation_before_lock`. -/
def addRelationBeforeLock (g : TaskGraph T M) (vtx lock : ℕ) : TaskGraph T M :=
  let g := g.setVertex vtx fun v => { v with waitting := some lock }
  g.setLock lock fun l => { l with used := l.used + 1 }

/-- `become_holder_after_lock`. -/
def becomeHolderAfterLock (g : TaskGraph T M) (vtx lock : ℕ) : TaskGraph T M :=
  let g := g.setLock lock fun l => { l with holder := some vtx }
  g.setVertex vtx fun v => { v with waitting := none }

/-- `dereference_after_unlock`. -/
def dereferenceAfterUnlock (g : TaskGraph T M) (lock : ℕ) : TaskGraph T M :=
  g.setLock lock fun l => { l with used := l.used - 1, holder := none }

/-- `get_wait_vertex`: the holder of the lock that a vertex waits for. -/
def getWaitVertex (g : TaskGraph T M) (vtx : ℕ) : Option ℕ :=
  (g.vertexAt vtx).bind fun v => v.waitting.bind fun p => (g.lockAt p).bind (·.holder)

/-- `search_vertex`. -/
def searchVertex [DecidableEq T] (g : TaskGraph T M) (tid : T) : Option (Vertex T) :=
  g.vertexList.find? (·.tid = tid)

/-- `search_lock`. -/
def searchLock [DecidableEq M] (g : TaskGraph T M) (mtx : M) : Option (ResourceLock M) :=
  g.lockList.find? (·.lock = mtx)

/-- `add_vertex_to_graph`. -/
def addVertexToGraph (g : TaskGraph T M) (vtx : Vertex T) : TaskGraph T M :=
  if ∃ v ∈ g.vertexList, v.ptr = vtx.ptr then g
  else { g with vertexList := g.vertexList ++ [vtx] }

/-- `add_lock_to_graph`. -/
def addLockToGraph (g : TaskGraph T M) (lock : ResourceLock M) : TaskGraph T M :=
  if ∃ l ∈ g.lockList, l.ptr = lock.ptr then g
  else { g with lockList := g.lockList ++ [lock] }

/-! ### The hooks -/

section

variable [DecidableEq T] [DecidableEq M]

/-- The part of `before_lock` that finds the vertex of the thread or adds one, at the
address that `malloc` gives. -/
def findOrAddVertex (g : TaskGraph T M) (tid : T) (memory : Option ℕ) :
    Option (TaskGraph T M × ℕ) :=
  match searchVertex g tid with
  | some v => some (g, v.ptr)
  | none => memory.map fun p => (addVertexToGraph g ⟨p, tid, none⟩, p)

/-- The part of `before_lock` that finds the lock of the mutex or adds one. -/
def findOrAddLock (g : TaskGraph T M) (mtx : M) (memory : Option ℕ) :
    Option (TaskGraph T M × ℕ) :=
  match searchLock g mtx with
  | some l => some (g, l.ptr)
  | none => memory.map fun p => (addLockToGraph g ⟨p, none, mtx, 0⟩, p)

/-- `before_lock`, on what `malloc` gives for a vertex and for a lock. -/
def beforeLock (g : TaskGraph T M) (tid : T) (mtx : M) (vertexMemory lockMemory : Option ℕ) :
    Option (TaskGraph T M) :=
  (findOrAddVertex g tid vertexMemory).bind fun (g, vtx) =>
    (findOrAddLock g mtx lockMemory).map fun (g, lock) => addRelationBeforeLock g vtx lock

/-- `after_lock`. -/
def afterLock (g : TaskGraph T M) (tid : T) (mtx : M) : Option (TaskGraph T M) :=
  match searchVertex g tid, searchLock g mtx with
  | some vtx, some lock => some (becomeHolderAfterLock g vtx.ptr lock.ptr)
  | _, _ => none

/-- `after_unlock`. -/
def afterUnlock (g : TaskGraph T M) (mtx : M) : Option (TaskGraph T M) :=
  match searchLock g mtx with
  | none => none
  | some lock =>
    let g := dereferenceAfterUnlock g lock.ptr
    if lock.used - 1 = 0 then
      some { g with lockList := g.lockList.filter (·.ptr ≠ lock.ptr) }
    else some g

end

/-! ### The detector -/

/-- `search_cross`: the vertex met twice, and the visited vertices. -/
def searchCross (g : TaskGraph T M) (fuel : ℕ) (vtx : ℕ) : Option (Option ℕ × List ℕ) :=
  Walk.search (getWaitVertex g) fuel vtx

/-- `print_cycle`: the threads it prints, the last one being the one it stops at. -/
def printCycle (g : TaskGraph T M) (fuel : ℕ) (cross : ℕ) : Option (List T) :=
  (Walk.goRound (getWaitVertex g) fuel cross).bind fun (listed, stop) =>
    stop.bind fun p => (listed ++ [p]).mapM fun p => (g.vertexAt p).map Vertex.tid

/-- One round of `detector_routine`, with the graph locked: the vertex on a cycle that it
finds. -/
def detectorPass (g : TaskGraph T M) (fuel : ℕ) : Option (Option ℕ) :=
  Walk.pass (getWaitVertex g) fuel (g.vertexList.map Vertex.ptr)

/-! ### Threads -/

/-- Where a thread is. A thread outside of the hooks may hold any number of mutexes. -/
inductive Pc (M : Type*)
  /-- Outside of the hooks. -/
  | idle
  /-- After `before_lock`, in the real acquire. -/
  | acquiring (m : M)
  /-- After the real acquire, before `after_lock`. -/
  | acquired (m : M)
  /-- After the real release, before `after_unlock`. -/
  | released (m : M)
  deriving DecidableEq

/-- The program: where its threads are, who really holds the mutexes, and the graph. -/
structure System (T M : Type*) where
  /-- Where the threads are. -/
  pc : T → Pc M
  /-- Who holds a mutex. -/
  owner : M → Option T
  /-- The graph. -/
  graph : TaskGraph T M

/-- A step of a thread. -/
inductive Act (T M : Type*)
  /-- `before_lock`, on two addresses that `malloc` may be asked for. -/
  | beforeLock (t : T) (m : M) (vertexMemory lockMemory : ℕ)
  /-- The real acquire. -/
  | acquire (t : T) (m : M)
  /-- `after_lock`. -/
  | afterLock (t : T) (m : M)
  /-- The real release. -/
  | release (t : T) (m : M)
  /-- `after_unlock`. -/
  | afterUnlock (t : T) (m : M)

variable [DecidableEq T] [DecidableEq M]

/-- **One step of the program.** A thread may lock any mutex, also one that it holds, and
unlocks mutexes that it holds. -/
inductive Step : System T M → Act T M → System T M → Prop
  /-- A thread calls `pthread_mutex_lock`. -/
  | beforeLock {s : System T M} {t : T} {m : M} {pv pl : ℕ} {g : TaskGraph T M} :
      s.pc t = .idle → (∀ v ∈ s.graph.vertexList, v.ptr ≠ pv) →
      (∀ l ∈ s.graph.lockList, l.ptr ≠ pl) →
      beforeLock s.graph t m (some pv) (some pl) = some g →
      Step s (.beforeLock t m pv pl)
        { s with pc := Function.update s.pc t (.acquiring m), graph := g }
  /-- It gets the mutex. -/
  | acquire {s : System T M} {t : T} {m : M} : s.pc t = .acquiring m → s.owner m = none →
      Step s (.acquire t m)
        { s with
          pc := Function.update s.pc t (.acquired m)
          owner := Function.update s.owner m (some t) }
  /-- It records that it holds the mutex. -/
  | afterLock {s : System T M} {t : T} {m : M} {g : TaskGraph T M} : s.pc t = .acquired m →
      afterLock s.graph t m = some g →
      Step s (.afterLock t m) { s with pc := Function.update s.pc t .idle, graph := g }
  /-- A thread calls `pthread_mutex_unlock`, and the mutex is free. -/
  | release {s : System T M} {t : T} {m : M} : s.pc t = .idle → s.owner m = some t →
      Step s (.release t m)
        { s with
          pc := Function.update s.pc t (.released m)
          owner := Function.update s.owner m none }
  /-- It records that it does not hold it any more. -/
  | afterUnlock {s : System T M} {t : T} {m : M} {g : TaskGraph T M} : s.pc t = .released m →
      afterUnlock s.graph m = some g →
      Step s (.afterUnlock t m) { s with pc := Function.update s.pc t .idle, graph := g }

/-- The program at its start, with an empty graph. -/
def System.init : System T M where
  pc _ := .idle
  owner _ := none
  graph := ⟨[], []⟩

/-- The thread that really keeps a thread from getting its mutex. -/
def System.waitsFor (s : System T M) (t : T) : Option T :=
  match s.pc t with
  | .acquiring m => s.owner m
  | _ => none

end Deadlock

end BackendStudy
