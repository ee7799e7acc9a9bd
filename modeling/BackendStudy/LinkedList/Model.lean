import BackendStudy.Lib.Loop
import Mathlib.Algebra.Order.Ring.Int
import Mathlib.Logic.Function.Basic

/-!
# The linked lists of `linkedTest.cpp`

A `myLink` has one or two lists of nodes, which its methods follow, count, turn round and
delete by their pointers. Nodes are at addresses of a type `P`; a memory is the nodes that are
there (`BackendStudy.LinkedList.Memory`), and to follow a pointer that is null or whose node is
not there is a fault (`BackendStudy.LinkedList.Memory.deref`), as is an `int` that leaves its
range. So a method that returns a value has followed no such pointer.

The constructor builds the three shapes of the source (`BackendStudy.LinkedList.myLink`): a list,
a list whose last node has a link back into it, and two lists with a common end.
-/

namespace BackendStudy

namespace LinkedList

variable {P : Type}

/-- What a program must not do. -/
inductive Fault
  /-- To follow the null pointer. -/
  | nullPointer
  /-- To follow, to write or to delete a node that is not there, or no longer. -/
  | noNode
  /-- To leave the range of `int`. -/
  | overflow
  deriving DecidableEq

/-- `struct LinkNode`. -/
structure LinkNode (P : Type) where
  /-- `val`. -/
  val : ℤ
  /-- `next`. -/
  next : Option P
  deriving DecidableEq

/-- The memory of the nodes. -/
@[ext] structure Memory (P : Type) where
  /-- The nodes that are there. -/
  node : P → Option (LinkNode P)
  /-- The nodes that have been deleted, the last one first. -/
  deleted : List P

namespace Memory

/-- The node behind a pointer that is followed. -/
def deref (m : Memory P) : Option P → Except Fault (LinkNode P)
  | none => .error .nullPointer
  | some p => (m.node p).elim (.error .noNode) .ok

variable [DecidableEq P]

/-- `new LinkNode`, at an address, and what is then written to the node. -/
def alloc (m : Memory P) (p : P) (n : LinkNode P) : Memory P :=
  { m with node := Function.update m.node p (some n) }

/-- `p->next = q`. -/
def setNext (m : Memory P) (p : P) (q : Option P) : Except Fault (Memory P) := do
  let n ← m.deref (some p)
  pure { m with node := Function.update m.node p (some { n with next := q }) }

/-- `delete p`. -/
def delete (m : Memory P) (p : P) : Except Fault (Memory P) := do
  let _ ← m.deref (some p)
  pure { m with node := Function.update m.node p none, deleted := p :: m.deleted }

end Memory

/-- A value of type `int`. -/
def toInt (x : ℤ) : Except Fault ℤ :=
  if -2147483648 ≤ x ∧ x ≤ 2147483647 then .ok x else .error .overflow

/-! ### The lists that are built -/

/-- `enum MODE`. -/
inductive Mode
  | simpleList
  | loopList
  | crossList

/-- The pointers and the number of a `myLink`. -/
structure MyLink (P : Type) where
  /-- `head`. -/
  head : Option P
  /-- `head2`. -/
  head2 : Option P
  /-- `nodeNum`. -/
  nodeNum : ℕ

section Build

variable [DecidableEq P] (new : ℕ → P)

/-- The loop that appends nodes to a list, from a value of `i` on: with the number of rounds that
are left, the addresses of the new nodes by `i`, and the last node `p`. -/
def appendNodes : ℕ → ℕ → Memory P × P → Except Fault (Memory P × P)
  | 0, _, s => .ok s
  | k + 1, i, (m, p) => do
    let q := new i
    let m := m.alloc q { val := i * 2, next := none }
    let m ← m.setNext p (some q)
    appendNodes k (i + 1) (m, q)

/-- `buildSimpleList`, with the last node. -/
def buildSimpleList (m : Memory P) (nodeNum : ℕ) : Except Fault (Memory P × P) :=
  appendNodes new (nodeNum - 1) 1 (m, new 0)

/-- `buildLoopList`. -/
def buildLoopList (m : Memory P) (nodeNum : ℕ) : Except Fault (Memory P) := do
  let (m, p) ← appendNodes new (nodeNum - 1) 1 (m, new 0)
  let n₀ ← m.deref (some (new 0))
  let n₁ ← m.deref n₀.next
  let n₂ ← m.deref n₁.next
  m.setNext p n₂.next

/-- `buildCrossList`, with `head2`. -/
def buildCrossList (m : Memory P) (nodeNum : ℕ) : Except Fault (Memory P × P) := do
  let (m, _) ← buildSimpleList new m nodeNum
  let head2 := new nodeNum
  let m := m.alloc head2 { val := 0, next := none }
  let (m, p) ← appendNodes (fun i => new (nodeNum + i)) 7 1 (m, head2)
  let n₀ ← m.deref (some (new 0))
  let n₁ ← m.deref n₀.next
  let n₂ ← m.deref n₁.next
  let n₃ ← m.deref n₂.next
  let m ← m.setNext p n₃.next
  pure (m, head2)

/-- The constructor, whose new nodes are at given addresses. -/
def myLink (m : Memory P) : Mode → Except Fault (Memory P × MyLink P)
  | .loopList => do
    let m ← buildLoopList new (m.alloc (new 0) { val := 0, next := none }) 10
    pure (m, { head := some (new 0), head2 := none, nodeNum := 10 })
  | .crossList => do
    let (m, head2) ← buildCrossList new (m.alloc (new 0) { val := 0, next := none }) 10
    pure (m, { head := some (new 0), head2 := some head2, nodeNum := 10 })
  | .simpleList => do
    let (m, _) ← buildSimpleList new (m.alloc (new 0) { val := 0, next := none }) 10
    pure (m, { head := some (new 0), head2 := none, nodeNum := 10 })

end Build

/-! ### The methods -/

/-- One round of the loop of `isListLooped`: the state is `slow` and `fast`. -/
def isListLoopedStep [DecidableEq P] (m : Memory P) :
    Option P × Option P → Except Fault ((Option P × Option P) ⊕ Bool)
  | (slow, fast) =>
    if slow ≠ none ∧ fast ≠ none then
      if slow = fast then .ok (.inr true)
      else do
        let slow' := (← m.deref slow).next
        let n ← m.deref fast
        if n.next ≠ none then
          let n' ← m.deref n.next
          pure (.inl (slow', n'.next))
        else pure (.inl (slow', n.next))
    else .ok (.inr false)

/-- `isListLooped`. -/
def isListLooped [DecidableEq P] (m : Memory P) (fuel : ℕ) (h : Option P) :
    Option (Except Fault Bool) :=
  if h = none then some (.ok false)
  else
    Loop.andThen (some (m.deref h)) fun n =>
      Loop.run (Loop.checked (isListLoopedStep m)) fuel (h, n.next)

/-- One round of the loop of `reverseList`: the state is the memory, `prev` and `current`. -/
def reverseListStep [DecidableEq P] :
    Memory P × Option P × Option P →
      Except Fault ((Memory P × Option P × Option P) ⊕ (Memory P × Option P))
  | (m, prev, none) => .ok (.inr (m, prev))
  | (m, prev, some current) => do
    let next := (← m.deref (some current)).next
    let m ← m.setNext current prev
    pure (.inl (m, some current, next))

/-- `reverseList`. -/
def reverseList [DecidableEq P] (m : Memory P) (fuel : ℕ) (h : Option P) :
    Option (Except Fault (Memory P × Option P)) :=
  Loop.run (Loop.checked reverseListStep) fuel (m, none, h)

/-- One round of the first loop of `clearList`: the state is the memory and `p`. -/
def clearFirstStep [DecidableEq P] :
    Memory P × Option P → Except Fault ((Memory P × Option P) ⊕ Memory P)
  | (m, none) => .ok (.inr m)
  | (m, some q) => do
    let p := (← m.deref (some q)).next
    let m ← m.setNext q none
    let m ← m.delete q
    pure (.inl (m, p))

/-- One round of the second loop, which does not write to the node. -/
def clearSecondStep [DecidableEq P] :
    Memory P × Option P → Except Fault ((Memory P × Option P) ⊕ Memory P)
  | (m, none) => .ok (.inr m)
  | (m, some q) => do
    let p := (← m.deref (some q)).next
    let m ← m.delete q
    pure (.inl (m, p))

/-- `clearList`. -/
def clearList [DecidableEq P] (m : Memory P) (fuel : ℕ) (l : MyLink P) :
    Option (Except Fault (Memory P × MyLink P)) :=
  Loop.andThen (Loop.run (Loop.checked clearFirstStep) fuel (m, l.head)) fun m =>
    Loop.andThen (Loop.run (Loop.checked clearSecondStep) fuel (m, l.head2)) fun m =>
      some (.ok (m, { l with head := none, head2 := none }))

/-- One round of the loop of `countListNodeNum`: the state is `cnt` and `h`. -/
def countListNodeNumStep (m : Memory P) : ℤ × Option P → Except Fault ((ℤ × Option P) ⊕ ℤ)
  | (cnt, none) => .ok (.inr cnt)
  | (cnt, some h) => do
    let cnt ← toInt (cnt + 1)
    let n ← m.deref (some h)
    pure (.inl (cnt, n.next))

/-- `countListNodeNum`. -/
def countListNodeNum (m : Memory P) (fuel : ℕ) (h : Option P) : Option (Except Fault ℤ) :=
  Loop.run (Loop.checked (countListNodeNumStep m)) fuel (0, h)

/-- One round of the loop of `getNthNode`: the state is `i` and `h`. -/
def getNthNodeStep (m : Memory P) (n : ℤ) :
    ℤ × Option P → Except Fault ((ℤ × Option P) ⊕ Option P)
  | (_, none) => .ok (.inr none)
  | (i, some h) =>
    if i < n then do
      let next := (← m.deref (some h)).next
      let i ← toInt (i + 1)
      pure (.inl (i, next))
    else .ok (.inr (some h))

/-- `getNthNode`. -/
def getNthNode (m : Memory P) (fuel : ℕ) (h : Option P) (n : ℤ) :
    Option (Except Fault (Option P)) :=
  Loop.run (Loop.checked (getNthNodeStep m n)) fuel (0, h)

/-- One round of the loop of `isListCrossed`: the state is `h1` and `h2`. -/
def isListCrossedStep [DecidableEq P] (m : Memory P) :
    Option P × Option P → Except Fault ((Option P × Option P) ⊕ Option P)
  | (h1, h2) =>
    if h1 ≠ none ∧ h2 ≠ none then
      if h1 = h2 then .ok (.inr h1)
      else do
        let h1 := (← m.deref h1).next
        let h2 := (← m.deref h2).next
        pure (.inl (h1, h2))
    else .ok (.inr none)

/-- `isListCrossed`. -/
def isListCrossed [DecidableEq P] (m : Memory P) (fuel : ℕ) (h1 h2 : Option P) :
    Option (Except Fault (Option P)) :=
  Loop.andThen (countListNodeNum m fuel h1) fun nodeNum1 =>
    Loop.andThen (countListNodeNum m fuel h2) fun nodeNum2 =>
      Loop.andThen
        (if nodeNum1 > nodeNum2 then
          Loop.andThen (some (toInt (nodeNum1 - nodeNum2))) fun nodeNumMinus =>
            Loop.andThen (getNthNode m fuel h1 nodeNumMinus) fun h1 => some (.ok (h1, h2))
        else
          Loop.andThen (some (toInt (nodeNum2 - nodeNum1))) fun nodeNumMinus =>
            Loop.andThen (getNthNode m fuel h2 nodeNumMinus) fun h2 => some (.ok (h1, h2)))
        fun hs => Loop.run (Loop.checked (isListCrossedStep m)) fuel hs

end LinkedList

end BackendStudy
