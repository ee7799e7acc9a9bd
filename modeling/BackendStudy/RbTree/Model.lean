import BackendStudy.Lib.Loop
import Mathlib.Logic.Function.Basic

/-!
# The red-black tree of `rbtree.c`, in memory

The tree of `1_rbtree/rbtree.c` lives in memory: its nodes are linked by parent and
child pointers, every missing child is the one sentinel `nil`, and all operations
work by assigning to fields. The model keeps this. A state is the tree header
together with one function per node field
(`BackendStudy.RbTree.RbtTree`), a pointer is an element of an arbitrary type `P`,
and each C function is the sequence of assignments the source writes, in its order.

The two things worth knowing before reading the functions:

* the fields of the sentinel are ordinary memory. Its key is never initialised, its
  parent is overwritten by every deletion, and its child pointers are overwritten by
  a right rotation at the root and by the first insertion;
* the payload of the application node that embeds an `RBT_NODE` is not a field of the
  tree. It is reached through the callback `swapData` only, so the model keeps it in
  a store of its own (`BackendStudy.RbTree.RbtTree.data`) and takes the callback as a
  function on that store.
-/

namespace BackendStudy

namespace RbTree

/-- `RBT_COLOR`. -/
inductive RbtColor
  /-- `RBT_RED`. -/
  | red
  /-- `RBT_BLACK`. -/
  | black
  deriving DecidableEq

/-- An `RBT_TREE` with the memory it points into: the header fields `root`, `nil`
and `swapData`, one function per field of `RBT_NODE`, and the payload store. -/
structure RbtTree (P V : Type*) where
  /-- The root pointer. -/
  root : P
  /-- The sentinel. -/
  nil : P
  /-- `node->parent`. -/
  parent : P → P
  /-- `node->left`. -/
  left : P → P
  /-- `node->right`. -/
  right : P → P
  /-- `node->color`. -/
  color : P → RbtColor
  /-- `node->key`. -/
  key : P → ℤ
  /-- The payload of the application node around an `RBT_NODE`. -/
  data : P → V
  /-- The callback that exchanges the payloads of two nodes. -/
  swapData : P → P → (P → V) → P → V

variable {P V : Type*} [DecidableEq P]

namespace RbtTree

/-! ### Assignments -/

/-- `t->root = p`. -/
def setRoot (t : RbtTree P V) (p : P) : RbtTree P V := { t with root := p }

/-- `p->parent = q`. -/
def setParent (t : RbtTree P V) (p q : P) : RbtTree P V :=
  { t with parent := Function.update t.parent p q }

/-- `p->left = q`. -/
def setLeft (t : RbtTree P V) (p q : P) : RbtTree P V :=
  { t with left := Function.update t.left p q }

/-- `p->right = q`. -/
def setRight (t : RbtTree P V) (p q : P) : RbtTree P V :=
  { t with right := Function.update t.right p q }

/-- `p->color = c`. -/
def setColor (t : RbtTree P V) (p : P) (c : RbtColor) : RbtTree P V :=
  { t with color := Function.update t.color p c }

/-- `p->key = k`. -/
def setKey (t : RbtTree P V) (p : P) (k : ℤ) : RbtTree P V :=
  { t with key := Function.update t.key p k }

end RbtTree

/-! ### Rotations -/

/-- `_leftRotate`. The status it returns is read by none of its callers. -/
def leftRotate (t : RbtTree P V) (x : P) : RbtTree P V :=
  if t.nil = t.right x then t
  else
    let p := t.parent x
    let y := t.right x
    let z := t.left y
    let t :=
      if p = t.nil then t.setRoot y
      else if x = t.left p then t.setLeft p y
      else t.setRight p y
    let t := t.setParent y p
    let t := t.setLeft y x
    let t := t.setParent x y
    let t := t.setRight x z
    if z ≠ t.nil then t.setParent z x else t

/-- `_rightRotate`. Unlike its mirror image it has no `else` after the test for the
root, so a rotation at the root also writes a child pointer of the sentinel. -/
def rightRotate (t : RbtTree P V) (y : P) : RbtTree P V :=
  if t.nil = t.left y then t
  else
    let p := t.parent y
    let x := t.left y
    let z := t.right x
    let t := if p = t.nil then t.setRoot x else t
    let t := if y = t.right p then t.setRight p x else t.setLeft p x
    let t := t.setParent x p
    let t := t.setRight x y
    let t := t.setParent y x
    let t := t.setLeft y z
    if z ≠ t.nil then t.setParent z y else t

/-! ### Insertion -/

/-- One round of the loop of `_adjustAfterInsert`, which leaves by colouring the
root black. -/
def adjustAfterInsertStep : RbtTree P V × P → (RbtTree P V × P) ⊕ RbtTree P V
  | (t, node) =>
    if t.color (t.parent node) = .red then
      if t.parent node = t.left (t.parent (t.parent node)) then
        let uncle := t.right (t.parent (t.parent node))
        if t.color uncle = .red then
          let t := t.setColor (t.parent node) .black
          let t := t.setColor uncle .black
          let t := t.setColor (t.parent (t.parent node)) .red
          .inl (t, t.parent (t.parent node))
        else
          let (t, node) :=
            if node = t.right (t.parent node) then
              (leftRotate t (t.parent node), t.parent node)
            else (t, node)
          let t := t.setColor (t.parent node) .black
          let t := t.setColor (t.parent (t.parent node)) .red
          .inl (rightRotate t (t.parent (t.parent node)), node)
      else
        let uncle := t.left (t.parent (t.parent node))
        if t.color uncle = .red then
          let t := t.setColor (t.parent node) .black
          let t := t.setColor uncle .black
          let t := t.setColor (t.parent (t.parent node)) .red
          .inl (t, t.parent (t.parent node))
        else
          let (t, node) :=
            if node = t.left (t.parent node) then
              (rightRotate t (t.parent node), t.parent node)
            else (t, node)
          let t := t.setColor (t.parent node) .black
          let t := t.setColor (t.parent (t.parent node)) .red
          .inl (leftRotate t (t.parent (t.parent node)), node)
    else .inr (t.setColor t.root .black)

/-- `_adjustAfterInsert`. -/
def adjustAfterInsert (fuel : ℕ) (t : RbtTree P V) (node : P) : Option (RbtTree P V) :=
  Loop.run adjustAfterInsertStep fuel (t, node)

/-- One round of the descent of `RBT_insertNode`: the state is `(node, prev)`, and the
loop leaves with `.inl prev` at the insertion point or with `.inr node` at a node that
already has the key. -/
def insertFindStep (t : RbtTree P V) (key : ℤ) : P × P → (P × P) ⊕ (P ⊕ P)
  | (node, prev) =>
    if node ≠ t.nil then
      if key < t.key node then .inl (t.left node, node)
      else if key > t.key node then .inl (t.right node, node)
      else .inr (.inr node)
    else .inr (.inl prev)

/-- `RBT_insertNode`: the tree afterwards and the pointer it returns. -/
def insertNode (fuel : ℕ) (t : RbtTree P V) (target : P) : Option (RbtTree P V × P) :=
  (Loop.run (insertFindStep t (t.key target)) fuel (t.root, t.root)).bind fun
    | .inr node => some (t, node)
    | .inl prev =>
      let t := t.setParent target prev
      let t := if prev = t.nil then t.setRoot target else t
      let t := if t.key target < t.key prev then t.setLeft prev target
        else t.setRight prev target
      let t := t.setLeft target t.nil
      let t := t.setRight target t.nil
      let t := t.setColor target .red
      (adjustAfterInsert fuel t target).map fun t => (t, target)

/-! ### Search -/

/-- One round of the loop of `RBT_search`. -/
def searchStep (t : RbtTree P V) (key : ℤ) (node : P) : P ⊕ P :=
  if node ≠ t.nil then
    if key < t.key node then .inl (t.left node)
    else if key > t.key node then .inl (t.right node)
    else .inr node
  else .inr t.nil

/-- `RBT_search`. -/
def search (fuel : ℕ) (t : RbtTree P V) (key : ℤ) : Option P :=
  Loop.run (searchStep t key) fuel t.root

/-! ### Deletion -/

/-- One round of the loop of `_adjustAfterDelete`. -/
def adjustAfterDeleteStep : RbtTree P V × P → (RbtTree P V × P) ⊕ RbtTree P V
  | (t, succesor) =>
    if t.color succesor = .black ∧ t.root ≠ succesor then
      let parent := t.parent succesor
      if succesor = t.right parent then
        let bro := t.left parent
        if t.color bro = .red then
          let t := t.setColor bro .black
          let t := t.setColor (t.right bro) .red
          .inr (rightRotate t parent)
        else if t.color (t.left bro) = .black ∧ t.color (t.right bro) = .black then
          let t := t.setColor bro .red
          if t.color parent = .red then .inr (t.setColor parent .black)
          else .inl (t, parent)
        else if t.color (t.left bro) = .black then
          let t := t.setColor bro (t.color parent)
          let t := t.setColor (t.right bro) .black
          .inr (rightRotate (leftRotate t bro) parent)
        else
          let t := t.setColor bro (t.color parent)
          let t := t.setColor parent .black
          let t := t.setColor (t.left bro) .black
          .inr (rightRotate t parent)
      else
        let bro := t.right parent
        if t.color bro = .red then
          let t := t.setColor bro .black
          let t := t.setColor (t.left bro) .red
          .inr (leftRotate t parent)
        else if t.color (t.right bro) = .black ∧ t.color (t.left bro) = .black then
          let t := t.setColor bro .red
          if t.color parent = .red then .inr (t.setColor parent .black)
          else .inl (t, parent)
        else if t.color (t.right bro) = .black then
          let t := t.setColor bro (t.color parent)
          let t := t.setColor (t.left bro) .black
          .inr (leftRotate (rightRotate t bro) parent)
        else
          let t := t.setColor bro (t.color parent)
          let t := t.setColor parent .black
          let t := t.setColor (t.right bro) .black
          .inr (leftRotate t parent)
    else .inr t

/-- `_adjustAfterDelete`. -/
def adjustAfterDelete (fuel : ℕ) (t : RbtTree P V) (succesor : P) : Option (RbtTree P V) :=
  Loop.run adjustAfterDeleteStep fuel (t, succesor)

/-- One round of the loop of `_getSuccessor`. -/
def leftmostStep (t : RbtTree P V) (succ : P) : P ⊕ P :=
  if t.left succ ≠ t.nil then .inl (t.left succ) else .inr succ

/-- `_getSuccessor`. -/
def getSuccessor (fuel : ℕ) (t : RbtTree P V) (node : P) : Option P :=
  if t.right node ≠ t.nil then Loop.run (leftmostStep t) fuel (t.right node) else some node

/-- `_swapNode`: exchange the keys of two nodes, and have the callback exchange their
payloads. -/
def swapNode (t : RbtTree P V) (node1 node2 : P) : RbtTree P V :=
  let keyTemp := t.key node1
  let t := t.setKey node1 (t.key node2)
  let t := t.setKey node2 keyTemp
  { t with data := t.swapData node1 node2 t.data }

/-- The part of `RBT_deleteNode` after the exchange with the successor: splice `target`
out, its child or the sentinel taking its place, and repair the colours. -/
def spliceOut (fuel : ℕ) (t : RbtTree P V) (target : P) : Option (RbtTree P V × P) :=
  let succesor :=
    if t.left target ≠ t.nil then t.left target
    else if t.right target ≠ t.nil then t.right target
    else t.nil
  let parent := t.parent target
  let t := t.setParent succesor parent
  let t :=
    if parent = t.nil then t.setRoot succesor
    else if target = t.left parent then t.setLeft parent succesor
    else t.setRight parent succesor
  let t := t.setColor succesor .black
  if succesor = t.nil ∧ t.color target = .black then
    (adjustAfterDelete fuel t succesor).map fun t => (t, target)
  else some (t, target)

/-- `RBT_deleteNode`: the tree afterwards and the node it returns. -/
def deleteNode (fuel : ℕ) (t : RbtTree P V) (target : P) : Option (RbtTree P V × P) :=
  if target = t.nil then some (t, t.nil)
  else if t.left target ≠ t.nil ∨ t.right target ≠ t.nil then
    (getSuccessor fuel t target).bind fun succesor =>
      spliceOut fuel (swapNode t target succesor) succesor
  else spliceOut fuel t target

/-- `RBT_deleteNodeByKey`. -/
def deleteNodeByKey (fuel : ℕ) (t : RbtTree P V) (key : ℤ) : Option (RbtTree P V × P) :=
  (search fuel t key).bind fun target => deleteNode fuel t target

/-- `RBT_initTree`, on memory that holds anything: the sentinel becomes black and its
own neighbour, its key is left as it was found. -/
def initTree (t : RbtTree P V) (nil : P) : RbtTree P V :=
  let t := { t with nil := nil }
  let t := t.setColor t.nil .black
  let t := t.setRoot t.nil
  let t := t.setParent t.root t.nil
  let t := t.setRight t.root t.nil
  t.setLeft t.root t.nil

end RbTree

end BackendStudy
