import BackendStudy.Lib.Slots
import Mathlib.Algebra.Order.Ring.Int

/-!
# The B-tree of `btree.c`

A node owns two arrays of fixed capacity, `keys` and `children`, of which the first
`keyNum` keys and `keyNum + 1` children are in use; the rest of the arrays holds whatever
earlier operations left there. The model keeps the arrays with their capacity and their
stale cells, reads and writes them by index, and reports an access outside of an array as
a fault (`BackendStudy.BTree.Fault`).

A node owns its children, so a tree of nodes is a value: a function of the source that
changes a node through a pointer returns the changed node, and its caller stores it back
in the cell the pointer came from. `_delete_key` can also move the root of the tree
(`_merge_children` does when it empties its parent), so it returns which of the two
happened (`BackendStudy.BTree.Outcome`).

The indices of the source's descending loops end at -1; they are kept one higher here.
-/

namespace BackendStudy

namespace BTree

open Slots

/-- What can go wrong in a run of the source. -/
inductive Fault
  /-- An array is accessed outside of its capacity. -/
  | outOfRange
  /-- A null pointer is followed. -/
  | nullPointer
  /-- A node is used after it has been freed. -/
  | useAfterFree
  /-- An `assert(0)` is reached. -/
  | assertion
  /-- The recursion is deeper than the fuel. -/
  | outOfFuel
  deriving DecidableEq

/-- `BTREE_NODE`. -/
structure BtreeNode where
  /-- The array of keys. -/
  keys : List ℤ
  /-- The array of children. -/
  children : List (Option BtreeNode)
  /-- The number of keys in use. -/
  keyNum : ℕ
  /-- Whether the node is a leaf. -/
  isLeaf : Bool

/-- `BTREE`. -/
structure Btree where
  /-- The root. -/
  root : BtreeNode
  /-- The largest number of keys of a node. -/
  kMaxNum : ℕ
  /-- The smallest number of keys of a node other than the root. -/
  kMinNum : ℕ
  /-- The index of the key that a split moves up. -/
  kMidIdx : ℕ
  /-- The order. -/
  order : ℕ

/-- A pointer to a child, followed. -/
def deref : Option BtreeNode → Except Fault BtreeNode
  | some node => .ok node
  | none => .error .nullPointer

/-- `node->children[i]`, followed. -/
def childAt (node : BtreeNode) (i : ℕ) : Except Fault BtreeNode :=
  get .outOfRange node.children i >>= deref

/-- A node with a changed child in the cell `i`. -/
def BtreeNode.setChild (node : BtreeNode) (i : ℕ) (child : BtreeNode) : BtreeNode :=
  { node with children := node.children.set i (some child) }

/-- `_create_node`, when the allocations succeed. -/
def createNode (t : Btree) (isLeaf : Bool) : BtreeNode where
  keys := List.replicate t.kMaxNum 0
  children := List.replicate t.order none
  keyNum := 0
  isLeaf := isLeaf

/-! ### Insertion -/

/-- `_split_child`: the parent afterwards. The new sibling is filled before it is linked
here, which as values is the same. -/
def splitChild (t : Btree) (parent : BtreeNode) (n : ℕ) : Except Fault BtreeNode := do
  if n > t.kMaxNum then .error .assertion
  else
    let splitChild ← childAt parent n
    let newSibling := createNode t splitChild.isLeaf
    -- the keys and children behind the split node move up by one
    let (keys, children) ← forDown (both (up .outOfRange 0) (up .outOfRange 1)) n
      (parent.keyNum - n) (parent.keys, parent.children)
    let i := min n parent.keyNum
    let keys ← get .outOfRange splitChild.keys t.kMidIdx >>= put .outOfRange keys i
    -- the rear half of the split node goes to the new one
    let count := t.kMaxNum - (t.kMidIdx + 1)
    let (newKeys, newChildren) ← forUp (both (copy .outOfRange splitChild.keys 0 (t.kMidIdx + 1))
      (copy .outOfRange splitChild.children 0 (t.kMidIdx + 1))) 0 count
      (newSibling.keys, newSibling.children)
    let newChildren ← get .outOfRange splitChild.children (t.kMidIdx + 1 + count) >>=
      put .outOfRange newChildren count
    let splitChild := { splitChild with keyNum := t.kMinNum }
    let newSibling :=
      { newSibling with keys := newKeys, children := newChildren, keyNum := t.kMinNum }
    let children ← put .outOfRange children (i + 1) (some newSibling)
    .ok { parent with
      keys := keys
      children := children.set n (some splitChild)
      keyNum := parent.keyNum + 1 }

/-- The loop of `_insert_notfull` at a leaf: it moves the keys greater than `key` up and
ends at the cell for `key`. -/
def insertShift (key : ℤ) : ℕ → List ℤ → Except Fault (ℕ × List ℤ)
  | 0, keys => .ok (0, keys)
  | i + 1, keys => do
    let k ← get .outOfRange keys i
    if key < k then
      let keys ← put .outOfRange keys (i + 1) k
      insertShift key i keys
    else .ok (i + 1, keys)

/-- The loop of `_insert_notfull` at an internal node: it ends at the child for `key`. -/
def findChild (key : ℤ) (keys : List ℤ) : ℕ → Except Fault ℕ
  | 0 => .ok 0
  | i + 1 => do
    let k ← get .outOfRange keys i
    if key < k then findChild key keys i else .ok (i + 1)

/-- `_insert_notfull`: the node afterwards. -/
def insertNotfull (t : Btree) : ℕ → BtreeNode → ℤ → Except Fault BtreeNode
  | 0, _, _ => .error .outOfFuel
  | fuel + 1, node, key =>
    if node.isLeaf then do
      let (i, keys) ← insertShift key node.keyNum node.keys
      let keys ← put .outOfRange keys i key
      .ok { node with keys := keys, keyNum := node.keyNum + 1 }
    else do
      let i ← findChild key node.keys node.keyNum
      let child ← childAt node i
      let (node, i) ←
        if child.keyNum = t.kMaxNum then do
          let node ← splitChild t node i
          .ok (node, i + 1)
        else .ok (node, i)
      -- the key before the child decides, also where there is none
      let k ← getPred .outOfRange node.keys i
      let i := if key > k then i else i - 1
      let child ← childAt node i
      let child ← insertNotfull t fuel child key
      .ok (node.setChild i child)

/-- `btree_insert`. -/
def btreeInsert (fuel : ℕ) (t : Btree) (key : ℤ) : Except Fault Btree := do
  let root := t.root
  if root.keyNum = t.kMaxNum then
    let newRoot := createNode t false
    let children ← put .outOfRange newRoot.children 0 (some root)
    let root ← splitChild t { newRoot with children := children } 0
    let k ← get .outOfRange root.keys 0
    let i := if key < k then 0 else 1
    let child ← childAt root i
    let child ← insertNotfull t fuel child key
    .ok { t with root := root.setChild i child }
  else
    let root ← insertNotfull t fuel root key
    .ok { t with root := root }

/-! ### Deletion -/

/-- `_merge_children`: the merged child, and the parent with it in its cell, or `none`
where the parent became empty, was freed, and the merged child is the root of the tree. -/
def mergeChildren (parent : BtreeNode) (n : ℕ) :
    Except Fault (BtreeNode × Option BtreeNode) := do
  let leftChild ← childAt parent n
  let rightChild ← childAt parent (n + 1)
  let keys ← get .outOfRange parent.keys n >>= put .outOfRange leftChild.keys leftChild.keyNum
  let i := leftChild.keyNum + 1
  let (keys, children) ← forUp (both (copy .outOfRange rightChild.keys i 0)
    (copy .outOfRange rightChild.children i 0)) 0 rightChild.keyNum (keys, leftChild.children)
  let children ← get .outOfRange rightChild.children rightChild.keyNum >>=
    put .outOfRange children (i + rightChild.keyNum)
  let leftChild :=
    { leftChild with
      keys := keys
      children := children
      keyNum := leftChild.keyNum + (1 + rightChild.keyNum) }
  -- the keys and children behind the merged child move down by one
  let count := parent.keyNum - 1 - n
  let (keys, children) ← forUp (both (down .outOfRange 0) (down .outOfRange 1)) n count
    (parent.keys, parent.children)
  let children ← put .outOfRange children (n + count + 1) none
  if parent.keyNum - 1 = 0 then .ok (leftChild, none)
  else
    let parent := { parent with keys := keys, children := children, keyNum := parent.keyNum - 1 }
    .ok (leftChild, some (parent.setChild n leftChild))

/-- The search loop of `_delete_key`: from the cell `i` on, over at most `count` cells, to
the first key that is not smaller than `key`. -/
def findKey (key : ℤ) (keys : List ℤ) : ℕ → ℕ → Except Fault ℕ
  | i, 0 => .ok i
  | i, count + 1 => do
    let k ← get .outOfRange keys i
    if k < key then findKey key keys (i + 1) count else .ok i

/-- The branch 2.1.1 of `_delete_key`: the child takes a key from its right sibling. -/
def borrowRight (node child right : BtreeNode) (targetIdx : ℕ) :
    Except Fault (BtreeNode × BtreeNode) := do
  let childKeys ← get .outOfRange node.keys targetIdx >>=
    put .outOfRange child.keys child.keyNum
  let childChildren ← get .outOfRange right.children 0 >>=
    put .outOfRange child.children (child.keyNum + 1)
  let keys ← get .outOfRange right.keys 0 >>= put .outOfRange node.keys targetIdx
  let count := right.keyNum - 1
  let (rightKeys, rightChildren) ← forUp (both (down .outOfRange 0) (down .outOfRange 0)) 0 count
    (right.keys, right.children)
  let rightChildren ← get .outOfRange rightChildren (count + 1) >>=
    put .outOfRange rightChildren count
  let rightChildren ← put .outOfRange rightChildren (count + 1) none
  let child :=
    { child with keys := childKeys, children := childChildren, keyNum := child.keyNum + 1 }
  let right :=
    { right with keys := rightKeys, children := rightChildren, keyNum := right.keyNum - 1 }
  let node := { node with keys := keys }
  .ok ((node.setChild targetIdx child).setChild (targetIdx + 1) right, child)

/-- The branch 2.1.2 of `_delete_key`: the child takes a key from its left sibling. -/
def borrowLeft (node child left : BtreeNode) (targetIdx : ℕ) :
    Except Fault (BtreeNode × BtreeNode) := do
  let (childKeys, childChildren) ← forDown (both (up .outOfRange 0) (up .outOfRange 1)) 0
    child.keyNum (child.keys, child.children)
  let childChildren ← get .outOfRange childChildren 0 >>= put .outOfRange childChildren 1
  let childKeys ← getPred .outOfRange node.keys targetIdx >>= put .outOfRange childKeys 0
  let childChildren ← get .outOfRange left.children left.keyNum >>=
    put .outOfRange childChildren 0
  let leftChildren ← put .outOfRange left.children left.keyNum none
  let keys ← getPred .outOfRange left.keys left.keyNum >>=
    put .outOfRange node.keys (targetIdx - 1)
  let child :=
    { child with keys := childKeys, children := childChildren, keyNum := child.keyNum + 1 }
  let left := { left with children := leftChildren, keyNum := left.keyNum - 1 }
  let node := { node with keys := keys }
  .ok ((node.setChild targetIdx child).setChild (targetIdx - 1) left, child)

/-- Where `_delete_key` goes on below a node: in the child `i` of the node, or, where the
node was the root and has been emptied and freed, in the child that replaced it. -/
inductive Descent
  /-- The child is in its cell. -/
  | into (node : BtreeNode) (i : ℕ) (child : BtreeNode)
  /-- The child is the root of the tree. -/
  | fromRoot (child : BtreeNode)

/-- The branch 2.1.3 of `_delete_key`: the children `n` and `n + 1` are merged. -/
def mergeInto (node : BtreeNode) (n : ℕ) : Except Fault Descent := do
  match ← mergeChildren node n with
  | (child, none) => .ok (.fromRoot child)
  | (child, some node) => .ok (.into node n child)

/-- The branch 2.1 of `_delete_key`: the child to descend into gets a key more than the
smallest number, from its right or left sibling or by merging with one of them. -/
def refill (t : Btree) (node child : BtreeNode) (targetIdx : ℕ) : Except Fault Descent := do
  let leftSibling ←
    if targetIdx ≥ 1 then get .outOfRange node.children (targetIdx - 1) else .ok none
  let rightSibling ←
    if targetIdx + 1 ≤ node.keyNum then get .outOfRange node.children (targetIdx + 1) else .ok none
  match rightSibling, leftSibling with
  | some right, none =>
    if right.keyNum > t.kMinNum then
      let (node, child) ← borrowRight node child right targetIdx
      .ok (.into node targetIdx child)
    else mergeInto node targetIdx
  | some right, some left =>
    if right.keyNum > t.kMinNum then
      let (node, child) ← borrowRight node child right targetIdx
      .ok (.into node targetIdx child)
    else if left.keyNum > t.kMinNum then
      let (node, child) ← borrowLeft node child left targetIdx
      .ok (.into node targetIdx child)
    else mergeInto node targetIdx
  | none, some left =>
    if left.keyNum > t.kMinNum then
      let (node, child) ← borrowLeft node child left targetIdx
      .ok (.into node targetIdx child)
    else mergeInto node (targetIdx - 1)
  | none, none => .error .assertion

/-- What a deletion below a pointer leaves: the node the pointer leads to, or a new root
of the whole tree. -/
inductive Outcome
  /-- The node stays in its place. -/
  | kept (node : BtreeNode)
  /-- The root of the tree has been replaced. -/
  | newRoot (node : BtreeNode)

/-- The outcome at a node, from the outcome at its child `i`. -/
def Outcome.above (node : BtreeNode) (i : ℕ) : Outcome → Outcome
  | kept child => kept (node.setChild i child)
  | newRoot root => newRoot root

/-- The outcome at a node that has been replaced as the root by its child. -/
def Outcome.moved : Outcome → Outcome
  | kept child => newRoot child
  | newRoot root => newRoot root

/-- `_delete_key`, on a node that is not null. -/
def deleteKey (t : Btree) : ℕ → BtreeNode → ℤ → Except Fault Outcome
  | 0, _, _ => .error .outOfFuel
  | fuel + 1, node, key =>
    if node.keyNum = 0 then .ok (.kept node)
    else do
      let targetIdx ← findKey key node.keys 0 node.keyNum
      let found ←
        if targetIdx < node.keyNum then do
          let k ← get .outOfRange node.keys targetIdx
          .ok (key == k)
        else .ok false
      if found then
        if node.isLeaf then
          -- 1.1
          let keys ← forUp (down .outOfRange 0) targetIdx (node.keyNum - 1 - targetIdx) node.keys
          .ok (.kept { node with keys := keys, keyNum := node.keyNum - 1 })
        else
          let right ← childAt node (targetIdx + 1)
          if right.keyNum ≥ t.kMinNum then
            -- 1.2.1
            let k ← get .outOfRange right.keys 0
            let keys ← put .outOfRange node.keys targetIdx k
            let out ← deleteKey t fuel right k
            .ok (out.above { node with keys := keys } (targetIdx + 1))
          else
            let left ← childAt node targetIdx
            if left.keyNum ≥ t.kMinNum then
              -- 1.2.2
              let keys ← get .outOfRange left.keys 0 >>= put .outOfRange node.keys targetIdx
              let k ← getPred .outOfRange left.keys node.keyNum
              let out ← deleteKey t fuel left k
              .ok (out.above { node with keys := keys } targetIdx)
            else
              -- 1.2.3, which goes on with the parent even when it has been freed
              match ← mergeInto node targetIdx with
              | .fromRoot _ => .error .useAfterFree
              | .into node i child =>
                let out ← deleteKey t fuel child key
                .ok (out.above node i)
      else
        match ← get .outOfRange node.children targetIdx with
        | none => .ok (.kept node)
        | some child =>
          let descent ←
            if child.keyNum ≤ t.kMinNum then refill t node child targetIdx
            else .ok (.into node targetIdx child)
          match descent with
          | .into node i child =>
            let out ← deleteKey t fuel child key
            .ok (out.above node i)
          | .fromRoot child =>
            let out ← deleteKey t fuel child key
            .ok out.moved

/-- `btree_delete`. -/
def btreeDelete (fuel : ℕ) (t : Btree) (key : ℤ) : Except Fault Btree := do
  match ← deleteKey t fuel t.root key with
  | .kept root => .ok { t with root := root }
  | .newRoot root => .ok { t with root := root }

/-- `btree_init_tree`, for an order that it accepts. -/
def btreeInitTree (order : ℕ) : Btree :=
  let t : Btree :=
    { root := ⟨[], [], 0, true⟩
      order := order % 2 + order
      kMidIdx := (order % 2 + order) / 2 - 1
      kMinNum := (order % 2 + order) / 2 - 1
      kMaxNum := order - 1 }
  { t with root := createNode t true }

end BTree

end BackendStudy
