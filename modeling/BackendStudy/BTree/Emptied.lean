import BackendStudy.BTree.Bounds
import BackendStudy.BTree.Delete
import Mathlib.Logic.Relation

/-!
# Merges that empty a node

A merge takes a key from the parent, and a parent without keys is freed and replaced, as the
root of the whole tree, by the merged child. That is right for the root only. A node with one
key is merged below in two ways: on the way down, where the source has first given every node
but the root a second key, and at a key that is found in it, where it may have come without
(`BackendStudy.BTree.Starved`): there the source also goes on with the node it has freed.

A deletion is followed through its recursive calls (`BackendStudy.BTree.CallStep`). The trees
that deletions leave need not be in order, but they keep a shape
(`BackendStudy.BTree.Loose`), and it is enough to see that the first way never does harm. So a
deletion keeps the rest of the tree if and only if none of its calls comes to a starved node
(`BackendStudy.BTree.unstarved_iff_keepsRest`).
-/

namespace BackendStudy

namespace BTree

open Slots Filter Relation

/-! ### The calls of a deletion -/

/-- A call of `_delete_key`, with whether its node is the root of the tree. -/
structure Call where
  /-- The node. -/
  node : BtreeNode
  /-- The key. -/
  key : ℤ
  /-- Whether the node is the root of the tree. -/
  isRoot : Bool

/-- The search loop of `_delete_key` stops at the cell `i` of a node that has a key. -/
def Stops (node : BtreeNode) (key : ℤ) (i : ℕ) : Prop :=
  node.keyNum ≠ 0 ∧ findKey key node.keys 0 node.keyNum = .ok i

/-- It stops at the key, in an internal node. -/
def Finds (node : BtreeNode) (key : ℤ) (i : ℕ) : Prop :=
  Stops node key i ∧ i < node.keyNum ∧ node.keys[i]? = some key ∧ node.isLeaf = false

/-- It stops elsewhere, at a child. -/
def Misses (node : BtreeNode) (key : ℤ) (i : ℕ) (child : BtreeNode) : Prop :=
  Stops node key i ∧ (i < node.keyNum → node.keys[i]? ≠ some key) ∧
    node.children[i]? = some (some child)

/-- The child to descend into, after the branch 2.1. -/
def descent (t : Btree) (node child : BtreeNode) (i : ℕ) : Except Fault Descent :=
  if child.keyNum ≤ t.kMinNum then refill t node child i else .ok (.into node i child)

/-- **One recursive call** of `_delete_key`. -/
inductive CallStep (t : Btree) : Call → Call → Prop
  /-- The branch 1.2.1. -/
  | right {c : Call} {i : ℕ} {right : BtreeNode} {k : ℤ} : Finds c.node c.key i →
      childAt c.node (i + 1) = .ok right → t.kMinNum ≤ right.keyNum →
      right.keys[0]? = some k → CallStep t c ⟨right, k, false⟩
  /-- The branch 1.2.2. -/
  | left {c : Call} {i : ℕ} {right left : BtreeNode} {k : ℤ} : Finds c.node c.key i →
      childAt c.node (i + 1) = .ok right → right.keyNum < t.kMinNum →
      childAt c.node i = .ok left → t.kMinNum ≤ left.keyNum →
      left.keys[c.node.keyNum - 1]? = some k → CallStep t c ⟨left, k, false⟩
  /-- The branch 1.2.3. -/
  | merged {c : Call} {i j : ℕ} {right left node child : BtreeNode} : Finds c.node c.key i →
      childAt c.node (i + 1) = .ok right → right.keyNum < t.kMinNum →
      childAt c.node i = .ok left → left.keyNum < t.kMinNum →
      mergeInto c.node i = .ok (.into node j child) → CallStep t c ⟨child, c.key, false⟩
  /-- The branch 2. -/
  | into {c : Call} {i j : ℕ} {child child' node : BtreeNode} : Misses c.node c.key i child →
      descent t c.node child i = .ok (.into node j child') → CallStep t c ⟨child', c.key, false⟩
  /-- The branch 2, where the node has been emptied and its child is the new root. -/
  | fromRoot {c : Call} {i : ℕ} {child child' : BtreeNode} : Misses c.node c.key i child →
      descent t c.node child i = .ok (.fromRoot child') → CallStep t c ⟨child', c.key, true⟩

/-- **The calls** that a call makes, itself included. -/
def Calls (t : Btree) : Call → Call → Prop := ReflTransGen (CallStep t)

/-- **A starved node**: a call finds its key as the only key of an internal node, and both
children have fewer keys than the smallest number. -/
def Starved (t : Btree) (c : Call) : Prop :=
  c.node.isLeaf = false ∧ c.node.keyNum = 1 ∧ c.node.keys[0]? = some c.key ∧
    ∃ left right, childAt c.node 0 = .ok left ∧ childAt c.node 1 = .ok right ∧
      left.keyNum < t.kMinNum ∧ right.keyNum < t.kMinNum

/-- **A deletion that is not starved**: none of its calls comes to a starved node. -/
def Unstarved (t : Btree) (key : ℤ) : Prop :=
  ∀ c, Calls t ⟨t.root, key, true⟩ c → ¬Starved t c

/-- A node or one below it holds the key. -/
def BtreeNode.Stores (node : BtreeNode) (key : ℤ) : Prop := ∃ d, node.Below d ∧ key ∈ d.liveKeys

/-- **A call whose merge empties its node**, and the merged child, which is made the root of
the tree. -/
inductive Empties (t : Btree) : Call → BtreeNode → Prop
  /-- In the branch 1.2.3. -/
  | found {c : Call} {i : ℕ} {right left child : BtreeNode} : Finds c.node c.key i →
      childAt c.node (i + 1) = .ok right → right.keyNum < t.kMinNum →
      childAt c.node i = .ok left → left.keyNum < t.kMinNum →
      mergeInto c.node i = .ok (.fromRoot child) → Empties t c child
  /-- In the branch 2.1.3. -/
  | onTheWay {c : Call} {i : ℕ} {child child' : BtreeNode} : Misses c.node c.key i child →
      descent t c.node child i = .ok (.fromRoot child') → Empties t c child'

/-- **The deletion of `key` keeps the rest of the tree**: it ends without a fault, so no freed
node is used, and where a merge empties a node, it is the root, and every key below it is in the
merged child. -/
def KeepsRest (t : Btree) (key : ℤ) : Prop :=
  (∃ t', ∀ᶠ n in atTop, btreeDelete n t key = .ok t') ∧
    ∀ c child, Calls t ⟨t.root, key, true⟩ c → Empties t c child →
      c.isRoot = true ∧ ∀ k, c.node.Stores k → child.Stores k

/-! ### The shape that deletions keep -/

/-- **A node of a tree after deletions**: at most one key is missing, and an internal node has a
key. -/
def Loose (t : Btree) (h : ℕ) (c : BtreeNode) : Prop :=
  t.kMinNum ≤ c.keyNum + 1 ∧ (h ≠ 0 → 0 < c.keyNum)

/-- A child as the descent of a deletion enters it. -/
def Filled (t : Btree) (h : ℕ) (c : BtreeNode) : Prop :=
  Shaped t (Loose t) h c ∧ t.kMinNum ≤ c.keyNum ∧ (h ≠ 0 → 2 ≤ c.keyNum)

/-- Where the descent goes on after it has dealt with a child. -/
def Goes (t : Btree) (h : ℕ) (node : BtreeNode) : Descent → Prop
  | .into node' i c' => Filled t h c' ∧ ∃ ks D₁ D₂, Live t node' false ks (D₁ ++ some c' :: D₂) ∧
      i = D₁.length ∧ Kids t (Loose t) (h + 1) false (D₁ ++ some c' :: D₂) ∧
      node.keyNum ≤ node'.keyNum + 1 ∧ 0 < node'.keyNum
  | .fromRoot c' => Filled t h c' ∧ node.keyNum = 1 ∧ ∀ k, node.Stores k → c'.Stores k

section

variable {t : Btree} {node c s : BtreeNode} {h : ℕ} {k : ℤ} {K₁ K₂ : List ℤ}
  {D₁ D₂ : List (Option BtreeNode)}

theorem upward_loose (ht : Params t) : Upward t (Loose t) := by
  have hmin := ht.min_pos
  refine ⟨fun h c hc => ⟨by omega, fun _ => by omega⟩, fun h c c' hc hle => ⟨?_, fun h₀ => ?_⟩⟩
  · exact hc.1.trans (Nat.succ_le_succ hle)
  · exact (hc.2 h₀).trans_le hle

theorem Filled.loose (hc : Filled t h c) : Loose t h c :=
  ⟨hc.2.1.trans (Nat.le_succ _), fun h₀ => (Nat.zero_lt_two).trans_le (hc.2.2 h₀)⟩

/-- **Borrowing from the right.** -/
theorem borrowRight_goes (ht : Params t)
    (hl : Live t node false (K₁ ++ k :: K₂) (D₁ ++ some c :: some s :: D₂))
    (hD : D₁.length = K₁.length)
    (hk : Kids t (Loose t) (h + 1) false (D₁ ++ some c :: some s :: D₂))
    (hle : c.keyNum ≤ t.kMinNum) (hgive : t.kMinNum < s.keyNum) :
    ∃ node' c', borrowRight node c s K₁.length = .ok (node', c') ∧
      Goes t h node (.into node' K₁.length c') := by
  have hmin := ht.min_pos
  have hmax := ht.max
  rw [kids_append, kids_cons, kids_some, kids_cons, kids_some] at hk
  obtain ⟨hk₁, ⟨⟨hcmin, hcpos⟩, hc⟩, ⟨-, hs⟩, hk₂⟩ := hk
  obtain ⟨lf, Ka, Da, ha, hka⟩ := shaped_iff.mp hc
  obtain ⟨lf', Kb, Db, hb, hkb⟩ := shaped_iff.mp hs
  obtain rfl : lf = lf' := hka.leaf_eq.trans hkb.leaf_eq.symm
  obtain ⟨k', Kb, rfl⟩ := List.exists_cons_of_length_pos (hb.keyNum ▸ (by omega : 0 < s.keyNum))
  obtain ⟨d, Db, rfl⟩ := List.exists_cons_of_length_eq_add_one hb.count
  rw [kids_cons] at hkb
  obtain ⟨node', c', s', hstep, hl', hc', hs'⟩ :=
    borrowRight_spec ht hl rfl hD ha (by rw [← ha.keyNum]; omega) hb
  have hc'num : c'.keyNum = c.keyNum + 1 := ha.keyNum_add hc' (by simp)
  have hs'num : s.keyNum = s'.keyNum + 1 := hs'.keyNum_add hb (by simp)
  have hnum : node'.keyNum = node.keyNum := hl.keyNum_add hl' (n := 0) (by simp)
  have hfilled : Filled t h c' := by
    refine ⟨hc'.shaped (kids_append.mpr ⟨hka, hkb.1⟩), by omega, fun h₀ => ?_⟩
    have := hcpos h₀
    omega
  refine ⟨node', c', hstep, hfilled, _, D₁, some s' :: D₂, hl', hD.symm, ?_, by omega, ?_⟩
  · rw [kids_append, kids_cons, kids_some, kids_cons, kids_some]
    exact ⟨hk₁, ⟨hfilled.loose, hfilled.1⟩, ⟨⟨by omega, fun _ => by omega⟩, hs'.shaped hkb.2⟩, hk₂⟩
  · rw [hl'.keyNum, List.length_append, List.length_cons]
    omega

/-- **Borrowing from the left.** -/
theorem borrowLeft_goes (ht : Params t)
    (hl : Live t node false (K₁ ++ k :: K₂) (D₁ ++ some s :: some c :: D₂))
    (hD : D₁.length = K₁.length)
    (hk : Kids t (Loose t) (h + 1) false (D₁ ++ some s :: some c :: D₂))
    (hle : c.keyNum ≤ t.kMinNum) (hgive : t.kMinNum < s.keyNum) :
    ∃ node' c', borrowLeft node c s (K₁.length + 1) = .ok (node', c') ∧
      Goes t h node (.into node' (K₁.length + 1) c') := by
  have hmin := ht.min_pos
  have hmax := ht.max
  rw [kids_append, kids_cons, kids_some, kids_cons, kids_some] at hk
  obtain ⟨hk₁, ⟨-, hs⟩, ⟨⟨hcmin, hcpos⟩, hc⟩, hk₂⟩ := hk
  obtain ⟨lf, Ka, Da, ha, hka⟩ := shaped_iff.mp hc
  obtain ⟨lf', Kb, Db, hb, hkb⟩ := shaped_iff.mp hs
  obtain rfl : lf = lf' := hka.leaf_eq.trans hkb.leaf_eq.symm
  have hbcount := hb.count
  have hbnum := hb.keyNum
  obtain ⟨Kb, k', rfl⟩ := exists_last (show 0 < Kb.length by omega)
  obtain ⟨Db, d, rfl⟩ := exists_last (show 0 < Db.length by omega)
  rw [kids_append] at hkb
  obtain ⟨node', c', s', hstep, hl', hc', hs'⟩ :=
    borrowLeft_spec ht hl rfl hD ha (by rw [← ha.keyNum]; omega) hb
  have hc'num : c'.keyNum = c.keyNum + 1 := ha.keyNum_add hc' (by simp)
  have hs'num : s.keyNum = s'.keyNum + 1 := hs'.keyNum_add hb (by simp)
  have hnum : node'.keyNum = node.keyNum := hl.keyNum_add hl' (n := 0) (by simp)
  -- the key from the parent is the one that the child was short of
  have hfilled : Filled t h c' := by
    refine ⟨hc'.shaped (kids_cons.mpr ⟨hkb.2, hka⟩), by omega, fun h₀ => ?_⟩
    have := hcpos h₀
    omega
  refine ⟨node', c', hstep, hfilled, _, D₁ ++ [some s'], D₂, by simpa using hl', by simp [hD], ?_,
    by omega, ?_⟩
  · rw [List.append_assoc, List.singleton_append, kids_append, kids_cons, kids_some, kids_cons,
      kids_some]
    exact ⟨hk₁, ⟨⟨by omega, fun _ => by omega⟩, hs'.shaped hkb.1⟩, ⟨hfilled.loose, hfilled.1⟩, hk₂⟩
  · rw [hl'.keyNum, List.length_append, List.length_cons]
    omega

/-- The merged child of an emptied node stores what the node did. -/
theorem Live.stores_merged {p l r : BtreeNode} {lf : Bool} {Ka Kb : List ℤ}
    {Da Db : List (Option BtreeNode)} (hp : Live t p false [k] [some l, some r])
    (hl : Live t l lf Ka Da) (hr : Live t r lf Kb Db)
    (hc : Live t c lf (Ka ++ k :: Kb) (Da ++ Db)) {a : ℤ} (ha : p.Stores a) : c.Stores a := by
  obtain ⟨d, hd, ha⟩ := ha
  have hcases : d = p ∨ d = l ∨ d = r ∨ c.Below d := by
    clear ha
    induction hd with
    | refl => exact Or.inl rfl
    | @child d e _ hmem ih =>
      rcases ih with rfl | rfl | rfl | hd
      · rw [hp.liveChildren_eq] at hmem
        simp only [List.mem_cons, Option.some.injEq, List.not_mem_nil, or_false] at hmem
        exact hmem.elim (fun he => Or.inr (Or.inl he)) fun he => Or.inr (Or.inr (Or.inl he))
      · rw [hl.liveChildren_eq] at hmem
        exact Or.inr (Or.inr (Or.inr (.child .refl (by simp [hc.liveChildren_eq, hmem]))))
      · rw [hr.liveChildren_eq] at hmem
        exact Or.inr (Or.inr (Or.inr (.child .refl (by simp [hc.liveChildren_eq, hmem]))))
      · exact Or.inr (Or.inr (Or.inr (.child hd hmem)))
  have hroot : a ∈ Ka ++ k :: Kb → c.Stores a := fun h => ⟨c, .refl, hc.liveKeys_eq.symm ▸ h⟩
  rcases hcases with rfl | rfl | rfl | hd
  · rw [hp.liveKeys_eq, List.mem_singleton] at ha
    exact hroot (by simp [ha])
  · exact hroot (List.mem_append_left _ (hl.liveKeys_eq ▸ ha))
  · exact hroot (List.mem_append_right _ (List.mem_cons_of_mem _ (hr.liveKeys_eq ▸ ha)))
  · exact ⟨d, hd, ha⟩

/-- **Merging.** A node with one key is emptied. -/
theorem mergeInto_goes (ht : Params t)
    (hl : Live t node false (K₁ ++ k :: K₂) (D₁ ++ some c :: some s :: D₂))
    (hD : D₁.length = K₁.length)
    (hk : Kids t (Loose t) (h + 1) false (D₁ ++ some c :: some s :: D₂))
    (hc : c.keyNum ≤ t.kMinNum) (hs : s.keyNum ≤ t.kMinNum) :
    ∃ d, mergeInto node K₁.length = .ok d ∧ Goes t h node d ∧
      (node.keyNum = 1 → ∃ c', d = .fromRoot c') := by
  have hmin := ht.min_pos
  have hmax := ht.max
  rw [kids_append, kids_cons, kids_some, kids_cons, kids_some] at hk
  obtain ⟨hk₁, ⟨⟨hcmin, hcpos⟩, hcs⟩, ⟨⟨hsmin, hspos⟩, hss⟩, hk₂⟩ := hk
  obtain ⟨lf, Ka, Da, ha', hka⟩ := shaped_iff.mp hcs
  obtain ⟨lf', Kb, Db, hb, hkb⟩ := shaped_iff.mp hss
  obtain rfl : lf = lf' := hka.leaf_eq.trans hkb.leaf_eq.symm
  have hanum := ha'.keyNum
  have hbnum := hb.keyNum
  obtain ⟨c', hc', hstep⟩ := mergeChildren_spec ht hl rfl hD ha' hb (by omega)
  have hc'num : c'.keyNum = c.keyNum + 1 + s.keyNum := by
    rw [hc'.keyNum, List.length_append, List.length_cons]
    omega
  have hfilled : Filled t h c' := by
    refine ⟨hc'.shaped (kids_append.mpr ⟨hka, hkb⟩), by omega, fun h₀ => ?_⟩
    have := hcpos h₀
    have := hspos h₀
    omega
  have hnum : node.keyNum = (K₁ ++ K₂).length + 1 := by
    rw [hl.keyNum]
    simp only [List.length_append, List.length_cons]
    omega
  -- the parent is emptied exactly if the merged children were all that it had
  rcases hstep with ⟨hnil, hstep⟩ | ⟨hne, p', hstep, hp'⟩
  · obtain ⟨rfl, rfl⟩ := List.append_eq_nil_iff.mp hnil
    have hcount := hl.count
    obtain rfl : D₁ = [] := List.length_eq_zero_iff.mp hD
    obtain rfl : D₂ = [] := by simpa using hcount
    exact ⟨.fromRoot c', by rw [mergeInto, hstep]; rfl,
      ⟨hfilled, hnum, fun a ha => hl.stores_merged ha' hb hc' ha⟩, fun _ => ⟨c', rfl⟩⟩
  · have hlen : 0 < (K₁ ++ K₂).length := List.length_pos_iff.mpr hne
    refine ⟨.into p' K₁.length c', by rw [mergeInto, hstep]; rfl, ⟨hfilled, _, D₁, D₂, hp',
      hD.symm, ?_, ?_, ?_⟩, fun hone => ?_⟩
    · rw [kids_append, kids_cons, kids_some]
      exact ⟨hk₁, ⟨hfilled.loose, hfilled.1⟩, hk₂⟩
    · rw [hp'.keyNum, hnum]
    · rw [hp'.keyNum]
      exact hlen
    · omega

/-- **The descent** to a child. -/
theorem descent_goes (ht : Params t) (hl : Live t node false (K₁ ++ K₂) (D₁ ++ some c :: D₂))
    (hD : D₁.length = K₁.length) (hk : Kids t (Loose t) (h + 1) false (D₁ ++ some c :: D₂))
    (hpos : 0 < node.keyNum) :
    ∃ d, descent t node c K₁.length = .ok d ∧ Goes t h node d := by
  have hmin := ht.min_pos
  by_cases hle : c.keyNum ≤ t.kMinNum
  · rw [descent, if_pos hle]
    -- whichever sibling helps, the child has a key more than the smallest number
    refine refill_of_helps hl.keyNum hpos (fun hK₂ => ?_) fun hK₁ => ?_
    · obtain ⟨k, K₂, rfl⟩ := List.exists_cons_of_ne_nil hK₂
      have hcount := hl.count
      simp only [List.length_append, List.length_cons] at hcount
      obtain ⟨d, D, rfl⟩ := List.exists_cons_of_length_pos (show 0 < D₂.length by omega)
      obtain ⟨s, rfl, -⟩ := hk.2 d (by simp)
      have hl' : Live t node false (K₁ ++ k :: K₂) ((D₁ ++ [some c]) ++ some s :: D) := by
        simpa using hl
      refine ⟨s, hl'.get_child (by simp [hD]), ?_⟩
      by_cases hgive : s.keyNum > t.kMinNum
      · exact Or.inl ⟨hgive, borrowRight_goes ht hl hD hk hle hgive⟩
      · obtain ⟨d, hstep, hd, -⟩ := mergeInto_goes ht hl hD hk hle (not_lt.mp hgive)
        exact Or.inr ⟨hgive, fun _ => ⟨d, hstep, hd⟩⟩
    · obtain ⟨K, k, rfl⟩ := (List.eq_nil_or_concat K₁).resolve_left hK₁
      rcases List.eq_nil_or_concat D₁ with rfl | ⟨D, d, rfl⟩
      · simp at hD
      rw [List.concat_eq_append] at *
      have hlen : (K ++ [k]).length = K.length + 1 := by simp
      obtain ⟨s, rfl, -⟩ := hk.2 d (by simp)
      have hl' : Live t node false (K ++ k :: K₂) (D ++ some s :: some c :: D₂) := by simpa using hl
      have hk' : Kids t (Loose t) (h + 1) false (D ++ some s :: some c :: D₂) := by simpa using hk
      have hDK : D.length = K.length := by simpa using hD
      rw [hlen, Nat.add_sub_cancel]
      refine ⟨s, hl'.get_child hDK.symm, ?_⟩
      by_cases hgive : s.keyNum > t.kMinNum
      · exact Or.inl ⟨hgive, borrowLeft_goes ht hl' hDK hk' hle hgive⟩
      · obtain ⟨d, hstep, hd, -⟩ := mergeInto_goes ht hl' hDK hk' (not_lt.mp hgive) hle
        exact Or.inr ⟨hgive, fun _ => ⟨d, hstep, hd⟩⟩
  · rw [descent, if_neg hle]
    have hkc := kids_some.mp (kids_cons.mp (kids_append.mp hk).2).1
    exact ⟨_, rfl, ⟨hkc.2, by omega, fun _ => by omega⟩, _, D₁, D₂, hl, hD.symm, hk, by omega, hpos⟩

end

/-! ### One call -/

/-- **A call that deletions make**: the node has the shape, and a node other than the root has
a key to lose, unless its key is deleted there and it may be starved. -/
def Sits (t : Btree) (h : ℕ) (c : Call) : Prop :=
  Shaped t (Loose t) h c.node ∧ (h ≠ 0 → 0 < c.node.keyNum) ∧
    (c.isRoot = false → t.kMinNum ≤ c.node.keyNum ∧
      (h ≠ 0 → 2 ≤ c.node.keyNum ∨ c.node.keys[0]? = some c.key))

/-- **What a call leaves** when all goes well. Only a call at the root makes a new root. -/
def Good (t : Btree) (h : ℕ) (isRoot : Bool) : Outcome → Prop
  | .kept node => Shaped t (Loose t) h node ∧ (h ≠ 0 → 0 < node.keyNum) ∧
      (isRoot = false → t.kMinNum ≤ node.keyNum + 1)
  | .newRoot node => isRoot = true ∧
      ∃ h, Shaped t (Loose t) h node ∧ (h ≠ 0 → 0 < node.keyNum)

section

variable {t : Btree} {ok : ℕ → BtreeNode → Prop} {node child l r : BtreeNode} {c c' : Call}
  {h i j : ℕ} {key k : ℤ} {lf : Bool} {ks K₁ K₂ : List ℤ} {ds D₁ D₂ : List (Option BtreeNode)}
  {out : Outcome}

theorem Live.capacity_le (hl : Live t node lf ks ds) : node.keyNum ≤ node.keys.length := by
  rw [hl.keyNum, hl.capacity]
  exact hl.keyNum_le

/-- The search loop stops behind the keys that are below `key`. -/
theorem Live.findKey_takeWhile (hl : Live t node lf ks ds) (key : ℤ) :
    findKey key node.keys 0 node.keyNum = .ok (ks.takeWhile (· < key)).length := by
  have hks : ks = ks.takeWhile (· < key) ++ ks.dropWhile (· < key) :=
    List.takeWhile_append_dropWhile.symm
  refine (hks ▸ hl).findKey_eq (fun a ha => by simpa using List.mem_takeWhile_imp ha) fun b hb => ?_
  have hhead := List.head?_dropWhile_not (· < key) ks
  rw [Option.mem_def.mp hb] at hhead
  simpa using hhead

theorem Live.exists_findKey (hl : Live t node lf ks ds) (key : ℤ) : ∃ K₁ K₂, ks = K₁ ++ K₂ ∧
    findKey key node.keys 0 node.keyNum = .ok K₁.length :=
  ⟨_, _, List.takeWhile_append_dropWhile.symm, hl.findKey_takeWhile key⟩

/-- The key that the search loop finds, with the children around it. -/
theorem Finds.focus (hf : Finds node key i) (hn : Shaped t ok h node) :
    ∃ h' K₁ K₂ D₁ l r D₂, h = h' + 1 ∧ i = K₁.length ∧ D₁.length = K₁.length ∧
      Live t node false (K₁ ++ key :: K₂) (D₁ ++ some l :: some r :: D₂) ∧
      Kids t ok (h' + 1) false (D₁ ++ some l :: some r :: D₂) := by
  obtain ⟨lf, ks, ds, hl, hk⟩ := shaped_iff.mp hn
  obtain ⟨⟨-, hstop⟩, hi, hkey, hleaf⟩ := hf
  obtain rfl : lf = false := hl.isLeaf.symm.trans hleaf
  obtain ⟨h', rfl⟩ : ∃ h', h = h' + 1 :=
    Nat.exists_eq_succ_of_ne_zero (by simpa using hk.leaf_eq)
  obtain ⟨K₁, K₂, rfl, hfind⟩ := hl.exists_findKey key
  obtain rfl : i = K₁.length := Except.ok.inj (hstop.symm.trans hfind)
  rw [hl.keyNum, List.length_append] at hi
  obtain ⟨k, K₂, rfl⟩ := List.exists_cons_of_length_pos (show 0 < K₂.length by omega)
  obtain ⟨rest, hrest⟩ := hl.keys
  obtain rfl : k = key := by
    rw [hrest] at hkey
    simpa using hkey
  obtain ⟨D₁, d, D₂, rfl, hD⟩ := hl.exists_child
  have hcount := hl.count
  simp only [List.length_append, List.length_cons] at hcount
  obtain ⟨e, D₂, rfl⟩ := List.exists_cons_of_length_pos (show 0 < D₂.length by omega)
  obtain ⟨l, rfl, -⟩ := hk.2 d (by simp)
  obtain ⟨r, rfl, -⟩ := hk.2 e (by simp)
  exact ⟨h', K₁, K₂, D₁, l, r, D₂, rfl, rfl, hD, hl, hk⟩

/-- The child where the search loop goes on. -/
theorem Misses.focus (hm : Misses node key i child) (hn : Shaped t ok h node) :
    ∃ h' K₁ K₂ D₁ D₂, h = h' + 1 ∧ i = K₁.length ∧ D₁.length = K₁.length ∧
      Live t node false (K₁ ++ K₂) (D₁ ++ some child :: D₂) ∧
      Kids t ok (h' + 1) false (D₁ ++ some child :: D₂) := by
  obtain ⟨lf, ks, ds, hl, hk⟩ := shaped_iff.mp hn
  obtain ⟨⟨-, hstop⟩, -, hchild⟩ := hm
  obtain ⟨K₁, K₂, rfl, hfind⟩ := hl.exists_findKey key
  obtain rfl : i = K₁.length := Except.ok.inj (hstop.symm.trans hfind)
  obtain ⟨D₁, d, D₂, rfl, hD⟩ := hl.exists_child
  obtain ⟨rest, hrest⟩ := hl.children
  obtain rfl : d = some child := by
    rw [hrest, ← hD] at hchild
    simpa using hchild
  obtain ⟨h', rfl⟩ : ∃ h', h = h' + 1 := by
    refine Nat.exists_eq_succ_of_ne_zero fun h₀ => ?_
    have hlf : lf = true := by simpa [h₀] using hk.leaf_eq
    exact absurd (hl.ds_null hlf (some child) (by simp)) (by simp)
  obtain rfl : lf = false := hk.1
  exact ⟨h', K₁, K₂, D₁, D₂, rfl, rfl, hD, hl, hk⟩

/-- **A step of the deletion** to a call below: its outcome is carried up. -/
def Carries (t : Btree) (c c' : Call) (post : Outcome → Outcome) : Prop :=
  ∀ n, deleteKey t (n + 1) c.node c.key =
    deleteKey t n c'.node c'.key >>= fun out => .ok (post out)

theorem Live.setChild_shaped (hl : Live t node false ks (D₁ ++ some l :: D₂)) (hi : i = D₁.length)
    (hk : Kids t ok (h + 1) false (D₁ ++ some l :: D₂)) (hr : ok h r) (hrs : Shaped t ok h r) :
    Shaped t ok (h + 1) (node.setChild i r) := by
  refine (hl.setChild hi r).shaped ?_
  rw [kids_append, kids_cons] at hk ⊢
  exact ⟨hk.1, kids_some.mpr ⟨hr, hrs⟩, hk.2.2⟩

/-- The outcome at a child other than the root, seen from the node. -/
theorem Good.above (hg : Good t h false out) {isRoot : Bool}
    (hl : Live t node false ks (D₁ ++ some l :: D₂)) (hi : i = D₁.length)
    (hk : Kids t (Loose t) (h + 1) false (D₁ ++ some l :: D₂)) (hpos : 0 < node.keyNum)
    (hmin : isRoot = false → t.kMinNum ≤ node.keyNum + 1) :
    Good t (h + 1) isRoot (out.above node i) := by
  cases out with
  | kept child =>
    exact ⟨hl.setChild_shaped hi hk ⟨hg.2.2 rfl, hg.2.1⟩ hg.1, fun _ => hpos, hmin⟩
  | newRoot root => exact absurd hg.1 (by simp)

theorem Filled.sits (hc : Filled t h child) (key : ℤ) (isRoot : Bool) :
    Sits t h ⟨child, key, isRoot⟩ :=
  ⟨hc.1, hc.loose.2, fun _ => ⟨hc.2.1, fun h₀ => Or.inl (hc.2.2 h₀)⟩⟩

end

/-- **A call made by a call**: it sits one level below, its outcome is carried up, and where it
goes well the outcome does. -/
def Follows (t : Btree) (h : ℕ) (c c' : Call) : Prop :=
  ∃ h' post, h = h' + 1 ∧ Sits t h' c' ∧ Carries t c c' post ∧
    ∀ out, Good t h' c'.isRoot out → Good t h c.isRoot (post out)

section

variable {t : Btree} {node child child' l r right left : BtreeNode} {c c' : Call} {h i j : ℕ}
  {key k : ℤ}

theorem Finds.focus_between {ok : ℕ → BtreeNode → Prop} (hf : Finds node key i)
    (hn : Shaped t ok h node) (hright : childAt node (i + 1) = .ok right)
    (hleft : childAt node i = .ok left) :
    ∃ h' K₁ K₂ D₁ D₂, h = h' + 1 ∧ i = K₁.length ∧ D₁.length = K₁.length ∧
      Live t node false (K₁ ++ key :: K₂) (D₁ ++ some left :: some right :: D₂) ∧
      Kids t ok (h' + 1) false (D₁ ++ some left :: some right :: D₂) := by
  obtain ⟨h', K₁, K₂, D₁, l, r, D₂, rfl, rfl, hD, hl, hkids⟩ := hf.focus hn
  have hl' : Live t node false (K₁ ++ key :: K₂) ((D₁ ++ [some l]) ++ some r :: D₂) := by
    simpa using hl
  obtain rfl : l = left := Except.ok.inj ((hl.childAt hD.symm).symm.trans hleft)
  obtain rfl : r = right := Except.ok.inj ((hl'.childAt (by simp [hD])).symm.trans hright)
  exact ⟨h', K₁, K₂, D₁, D₂, rfl, rfl, hD, hl, hkids⟩

/-- The branch 1.2.1. -/
theorem Sits.toRight (hs : Sits t h c) (hf : Finds c.node c.key i)
    (hright : childAt c.node (i + 1) = .ok right) (hge : t.kMinNum ≤ right.keyNum)
    (hk : right.keys[0]? = some k) : Follows t h c ⟨right, k, false⟩ := by
  obtain ⟨hn, hpos, hmin⟩ := hs
  obtain ⟨h', K₁, K₂, D₁, l, r, D₂, rfl, rfl, hD, hl, hkids⟩ := hf.focus hn
  obtain ⟨⟨hne, hstop⟩, hlt, hkey, hleaf⟩ := hf
  have hsplit : D₁ ++ some l :: some r :: D₂ = (D₁ ++ [some l]) ++ some r :: D₂ := by simp
  have hi : K₁.length + 1 = (D₁ ++ [some l]).length := by simp [hD]
  rw [hsplit] at hl hkids
  obtain rfl : r = right := Except.ok.inj ((hl.childAt hi).symm.trans hright)
  obtain ⟨⟨-, hrpos⟩, hr⟩ := kids_some.mp (kids_cons.mp (kids_append.mp hkids).2).1
  obtain ⟨keys, hput, hl'⟩ := hl.put_key rfl k
  have hget : get Fault.outOfRange c.node.keys K₁.length = .ok c.key := hl.get_key rfl
  have hgetr : get Fault.outOfRange r.keys 0 = .ok k := get_of_getElem? hk
  refine ⟨h', fun out => out.above { c.node with keys := keys } (K₁.length + 1), rfl,
    ⟨hr, hrpos, fun _ => ⟨hge, fun _ => Or.inr hk⟩⟩, fun n => ?_, fun out hg => ?_⟩
  · simp only [deleteKey, hne, if_false, hstop, ok_bind, hlt, if_true, hget, beq_self_eq_true,
      hleaf, Bool.false_eq_true, hright, ge_iff_le, hge, hgetr, hput]
  · exact hg.above hl' hi hkids (hpos (by simp)) fun h₀ => (hmin h₀).1.trans (Nat.le_succ _)

/-- The branch 1.2.2. -/
theorem Sits.toLeft (ht : Params t) (hs : Sits t h c) (hf : Finds c.node c.key i)
    (hright : childAt c.node (i + 1) = .ok right) (hlt' : right.keyNum < t.kMinNum)
    (hleft : childAt c.node i = .ok left) (hge : t.kMinNum ≤ left.keyNum)
    (hk : left.keys[c.node.keyNum - 1]? = some k) : Follows t h c ⟨left, k, false⟩ := by
  have hmin₁ := ht.min_pos
  obtain ⟨hn, hpos, hmin⟩ := hs
  obtain ⟨h', K₁, K₂, D₁, D₂, rfl, rfl, hD, hl, hkids⟩ := hf.focus_between hn hright hleft
  obtain ⟨⟨hne, hstop⟩, hlt, hkey, hleaf⟩ := hf
  have hkids' := hkids
  rw [kids_append, kids_cons, kids_some, kids_cons, kids_some] at hkids'
  obtain ⟨-, ⟨⟨-, hlpos⟩, hls⟩, ⟨⟨-, hrpos⟩, -⟩, -⟩ := hkids'
  obtain ⟨lf, ks, ds, hlive, -⟩ := shaped_iff.mp hls
  obtain ⟨k₀, ks, rfl⟩ := List.exists_cons_of_length_pos (hlive.keyNum ▸ hmin₁.trans hge)
  obtain ⟨keys, hput, hl'⟩ := hl.put_key rfl k₀
  have hget : get Fault.outOfRange c.node.keys K₁.length = .ok c.key := hl.get_key rfl
  have hgetl : get Fault.outOfRange left.keys 0 = .ok k₀ := hlive.get_head
  have hgetp : getPred Fault.outOfRange left.keys c.node.keyNum = .ok k := by
    obtain ⟨m, hm⟩ := Nat.exists_eq_succ_of_ne_zero hne
    rw [hm] at hk ⊢
    exact get_of_getElem? hk
  have hgive : ¬t.kMinNum ≤ right.keyNum := not_le.mpr hlt'
  refine ⟨h', fun out => out.above { c.node with keys := keys } K₁.length, rfl,
    ⟨hls, hlpos, fun _ => ⟨hge, fun h₀ => Or.inl ?_⟩⟩, fun n => ?_, fun out hg => ?_⟩
  · -- an internal sibling has a key, so the smallest number is at least two
    have := hrpos h₀
    change 2 ≤ left.keyNum
    omega
  · simp only [deleteKey, hne, if_false, hstop, ok_bind, hlt, if_true, hget, beq_self_eq_true,
      hleaf, Bool.false_eq_true, hright, ge_iff_le, hgive, hleft, hge, hgetl, hgetp, hput]
  · exact hg.above hl' hD.symm hkids (hpos (by simp)) fun h₀ => (hmin h₀).1.trans (Nat.le_succ _)

/-- The branch 1.2.3. -/
theorem Sits.toMerged (ht : Params t) (hs : Sits t h c) (hf : Finds c.node c.key i)
    (hright : childAt c.node (i + 1) = .ok right) (hlt₁ : right.keyNum < t.kMinNum)
    (hleft : childAt c.node i = .ok left) (hlt₂ : left.keyNum < t.kMinNum)
    (hmerge : mergeInto c.node i = .ok (.into node j child)) :
    Follows t h c ⟨child, c.key, false⟩ := by
  obtain ⟨hn, hpos, hmin⟩ := hs
  obtain ⟨h', K₁, K₂, D₁, D₂, rfl, rfl, hD, hl, hkids⟩ := hf.focus_between hn hright hleft
  obtain ⟨⟨hne, hstop⟩, hlt, hkey, hleaf⟩ := hf
  obtain ⟨d, hstep, hgoes, -⟩ := mergeInto_goes ht hl hD hkids hlt₂.le hlt₁.le
  obtain rfl := Except.ok.inj (hmerge.symm.trans hstep)
  obtain ⟨hfilled, ks, E₁, E₂, hl', hi, hk', hnum, hpos'⟩ := hgoes
  have hget : get Fault.outOfRange c.node.keys K₁.length = .ok c.key := hl.get_key rfl
  have hno₁ : ¬t.kMinNum ≤ right.keyNum := not_le.mpr hlt₁
  have hno₂ : ¬t.kMinNum ≤ left.keyNum := not_le.mpr hlt₂
  refine ⟨h', fun out => out.above node j, rfl, hfilled.sits c.key false, fun n => ?_,
    fun out hg => ?_⟩
  · simp only [deleteKey, hne, if_false, hstop, ok_bind, hlt, if_true, hget, beq_self_eq_true,
      hleaf, Bool.false_eq_true, hright, ge_iff_le, hno₁, hleft, hno₂, hmerge]
  · exact hg.above hl' hi hk' hpos' fun h₀ => (hmin h₀).1.trans hnum

/-- The step at a node where the search loop stops at another key, or behind the last. -/
theorem Stops.deleteKey_eq (hs : Stops node key i)
    (hother : i < node.keyNum → node.keys[i]? ≠ some key)
    (hcap : node.keyNum ≤ node.keys.length) (n : ℕ) :
    deleteKey t (n + 1) node key = get Fault.outOfRange node.children i >>= fun d =>
      match d with
      | none => .ok (.kept node)
      | some child => descent t node child i >>= Descent.follow fun c => deleteKey t n c key := by
  obtain ⟨hne, hstop⟩ := hs
  have hnot : ∀ a b : Except Fault Outcome, (if i < node.keyNum then
      get Fault.outOfRange node.keys i >>= fun k => if (key == k) = true then a else b
      else b) = b := by
    intro a b
    split_ifs with hi
    · have hk : node.keys[i]? = some node.keys[i] := List.getElem?_eq_getElem (hi.trans_le hcap)
      have hne' : (key == node.keys[i]) = false :=
        beq_eq_false_iff_ne.mpr fun he => hother hi (he ▸ hk)
      simp only [get_of_getElem? hk, ok_bind, hne', Bool.false_eq_true, if_false]
    · rfl
  rw [deleteKey]
  simp only [hne, if_false, hstop, ok_bind, Bool.false_eq_true, hnot, descent]
  congr 1
  funext d
  cases d with
  | none => rfl
  | some child =>
    dsimp only
    split_ifs
    · congr 1
    · rfl

theorem Misses.head_ne (hm : Misses node key i child) : node.keys[0]? ≠ some key := by
  intro hkey
  obtain ⟨⟨hne, hstop⟩, hother, -⟩ := hm
  obtain ⟨m, hm⟩ := Nat.exists_eq_succ_of_ne_zero hne
  have hfind : findKey key node.keys 0 node.keyNum = .ok 0 := by
    rw [hm, Nat.succ_eq_add_one, findKey, get_of_getElem? hkey, ok_bind, if_neg (lt_irrefl key)]
  obtain rfl : i = 0 := Except.ok.inj (hstop.symm.trans hfind)
  exact hother (by omega) hkey

/-- A node with one key that misses its key is the root: another node would have had a second
key. -/
theorem Sits.isRoot_of_misses (hs : Sits t h c) (hh : h ≠ 0) (hm : Misses c.node c.key i child)
    (hone : c.node.keyNum = 1) : c.isRoot = true := by
  by_contra h₀
  rcases (hs.2.2 (by simpa using h₀)).2 hh with htwo | hkey
  · omega
  · exact hm.head_ne hkey

/-- What the descent to a child does. -/
theorem Sits.descends (ht : Params t) (hs : Sits t h c) (hm : Misses c.node c.key i child) :
    ∃ h' d, h = h' + 1 ∧ descent t c.node child i = .ok d ∧ Goes t h' c.node d ∧
      ∀ n, deleteKey t (n + 1) c.node c.key = d.follow fun x => deleteKey t n x c.key := by
  obtain ⟨hn, hpos, -⟩ := hs
  obtain ⟨h', K₁, K₂, D₁, D₂, rfl, rfl, hD, hl, hkids⟩ := hm.focus hn
  obtain ⟨d, hd, hgoes⟩ := descent_goes ht hl hD hkids (hpos (by simp))
  refine ⟨h', d, rfl, hd, hgoes, fun n => ?_⟩
  rw [hm.1.deleteKey_eq hm.2.1 hl.capacity_le, get_of_getElem? hm.2.2]
  simp only [ok_bind, hd]

/-- **What a call calls.** -/
theorem CallStep.follows (ht : Params t) (hs : Sits t h c) (hstep : CallStep t c c') :
    Follows t h c c' := by
  cases hstep with
  | right hf hright hge hk => exact hs.toRight hf hright hge hk
  | left hf hright hlt hleft hge hk => exact hs.toLeft ht hf hright hlt hleft hge hk
  | merged hf hright hlt₁ hleft hlt₂ hmerge =>
    exact hs.toMerged ht hf hright hlt₁ hleft hlt₂ hmerge
  | into hm hd' =>
    obtain ⟨h', d, rfl, hd, hgoes, hrun⟩ := hs.descends ht hm
    obtain rfl := Except.ok.inj (hd'.symm.trans hd)
    obtain ⟨hfilled, ks, E₁, E₂, hl, hi, hk, hnum, hpos⟩ := hgoes
    exact ⟨h', _, rfl, hfilled.sits c.key false, hrun, fun out hg =>
      hg.above hl hi hk hpos fun h₀ => (hs.2.2 h₀).1.trans hnum⟩
  | fromRoot hm hd' =>
    obtain ⟨h', d, rfl, hd, hgoes, hrun⟩ := hs.descends ht hm
    obtain rfl := Except.ok.inj (hd'.symm.trans hd)
    obtain ⟨hfilled, hone, -⟩ := hgoes
    have hroot : c.isRoot = true := hs.isRoot_of_misses (by simp) hm hone
    refine ⟨h', _, rfl, hfilled.sits c.key true, hrun, fun out hg => ?_⟩
    cases out with
    | kept node => exact ⟨hroot, h', hg.1, hg.2.1⟩
    | newRoot node => exact ⟨hroot, hg.2⟩

/-- **A starved call** uses the node it has freed. -/
theorem Starved.deleteKey_eq (ht : Params t) (hs : Sits t h c) (hst : Starved t c) (n : ℕ) :
    deleteKey t (n + 1) c.node c.key = .error .useAfterFree := by
  obtain ⟨hleaf, hone, hkey, left, right, hleft, hright, hlt₂, hlt₁⟩ := hst
  have hstop : findKey c.key c.node.keys 0 c.node.keyNum = .ok 0 := by
    rw [hone, findKey, get_of_getElem? hkey, ok_bind, if_neg (lt_irrefl _)]
  have hf : Finds c.node c.key 0 := ⟨⟨by omega, hstop⟩, by omega, hkey, hleaf⟩
  obtain ⟨h', K₁, K₂, D₁, D₂, rfl, hi, hD, hl, hkids⟩ := hf.focus_between hs.1 hright hleft
  obtain ⟨d, hmerge, -, hempty⟩ := mergeInto_goes ht hl hD hkids hlt₂.le hlt₁.le
  obtain ⟨child, rfl⟩ := hempty hone
  rw [← hi] at hmerge
  have hget : get Fault.outOfRange c.node.keys 0 = .ok c.key := get_of_getElem? hkey
  have hne : ¬c.node.keyNum = 0 := by omega
  have hlt : 0 < c.node.keyNum := by omega
  have hno₁ : ¬t.kMinNum ≤ right.keyNum := not_le.mpr hlt₁
  have hno₂ : ¬t.kMinNum ≤ left.keyNum := not_le.mpr hlt₂
  simp only [deleteKey, hne, if_false, hstop, ok_bind, hlt, if_true, hget, beq_self_eq_true, hleaf,
    Bool.false_eq_true, hright, ge_iff_le, hno₁, hleft, hno₂, hmerge, Nat.zero_add]

/-- A call that finds its key above the leaves calls itself, unless its node is starved. -/
theorem Finds.calls (ht : Params t) (hf : Finds c.node c.key i) (hn : Shaped t (Loose t) h c.node)
    (hst : ¬Starved t c) : ∃ c', CallStep t c c' := by
  have hmin₁ := ht.min_pos
  obtain ⟨h', A, B, D₁, l, r, D₂, rfl, rfl, hD, hl, hkids⟩ := hf.focus hn
  have hl₀ : Live t c.node false (A ++ c.key :: B) ((D₁ ++ [some l]) ++ some r :: D₂) := by
    simpa using hl
  have hleft : childAt c.node A.length = .ok l := hl.childAt hD.symm
  have hright : childAt c.node (A.length + 1) = .ok r := hl₀.childAt (by simp [hD])
  have hkids' := hkids
  rw [kids_append, kids_cons, kids_some, kids_cons, kids_some] at hkids'
  obtain ⟨-, ⟨-, hls⟩, ⟨-, hrs⟩, -⟩ := hkids'
  by_cases hge : t.kMinNum ≤ r.keyNum
  · obtain ⟨lf', ks', ds', hr, -⟩ := shaped_iff.mp hrs
    obtain ⟨k, ks', rfl⟩ := List.exists_cons_of_length_pos (hr.keyNum ▸ hmin₁.trans hge)
    exact ⟨_, .right hf hright hge (get_eq_ok hr.get_head)⟩
  by_cases hge' : t.kMinNum ≤ l.keyNum
  · obtain ⟨lf', ks', ds', hlive, -⟩ := shaped_iff.mp hls
    have hcap : c.node.keyNum - 1 < l.keys.length := by
      have := hl.capacity_le
      rw [hl.capacity] at this
      rw [hlive.capacity]
      have := hf.1.1
      omega
    exact ⟨_, .left hf hright (not_le.mp hge) hleft hge' (List.getElem?_eq_getElem hcap)⟩
  obtain ⟨d, hmerge, hgoes, -⟩ :=
    mergeInto_goes ht hl hD hkids (not_le.mp hge').le (not_le.mp hge).le
  cases d with
  | into node j child =>
    exact ⟨_, .merged hf hright (not_le.mp hge) hleft (not_le.mp hge') hmerge⟩
  | fromRoot child =>
    -- the node had one key only
    have hone := hgoes.2.1
    have hzero : A.length = 0 := by
      have := hf.2.1
      omega
    obtain ⟨-, -, hkey, hleaf⟩ := hf
    rw [hzero] at hkey hleft hright
    exact absurd ⟨hleaf, hone, hkey, l, r, hleft, hright, not_le.mp hge', not_le.mp hge⟩ hst

/-- **How a call goes on** that is not starved: it ends well, or it makes another call. -/
theorem Sits.ends_or_calls (ht : Params t) (hs : Sits t h c) (hst : ¬Starved t c) :
    (∃ out, Good t h c.isRoot out ∧ ∀ n, deleteKey t (n + 1) c.node c.key = .ok out) ∨
      ∃ c', CallStep t c c' := by
  obtain ⟨hn, hpos, hmin⟩ := hs
  have hstay : Good t h c.isRoot (.kept c.node) :=
    ⟨hn, hpos, fun h₀ => (hmin h₀).1.trans (Nat.le_succ _)⟩
  by_cases hne : c.node.keyNum = 0
  · refine Or.inl ⟨_, hstay, fun n => ?_⟩
    rw [deleteKey, if_pos hne]
  obtain ⟨lf, ks, ds, hl, hk⟩ := shaped_iff.mp hn
  obtain ⟨K₁, K₂, rfl, hfind⟩ := hl.exists_findKey c.key
  have hstop : Stops c.node c.key K₁.length := ⟨hne, hfind⟩
  by_cases hfound : K₁.length < c.node.keyNum ∧ c.node.keys[K₁.length]? = some c.key
  · obtain ⟨hlt, hkey⟩ := hfound
    cases hleaf : c.node.isLeaf with
    | true =>
      -- 1.1
      obtain rfl : lf = true := hl.isLeaf.symm.trans hleaf
      obtain rfl : h = 0 := by simpa using hk.leaf_eq
      obtain ⟨k, K₂, rfl⟩ := List.exists_cons_of_length_pos (show 0 < K₂.length by
        rw [hl.keyNum, List.length_append] at hlt
        omega)
      obtain ⟨keys, ds', hloop, hl'⟩ := hl.remove rfl
      refine Or.inl ⟨.kept { c.node with keys := keys, keyNum := c.node.keyNum - 1 },
        ⟨⟨_, ds', hl'⟩, by simp, fun h₀ => ?_⟩, fun n => ?_⟩
      · have := (hmin h₀).1
        change t.kMinNum ≤ c.node.keyNum - 1 + 1
        omega
      · simp only [deleteKey, hne, if_false, hfind, ok_bind, hlt, if_true, get_of_getElem? hkey,
          beq_self_eq_true, hleaf, hloop]
    | false =>
      have hf : Finds c.node c.key K₁.length := ⟨hstop, hlt, hkey, hleaf⟩
      exact Or.inr (hf.calls ht hn hst)
  · have hother : K₁.length < c.node.keyNum → c.node.keys[K₁.length]? ≠ some c.key :=
      fun hlt hkey => hfound ⟨hlt, hkey⟩
    obtain ⟨D₁, d, D₂, rfl, hD⟩ := hl.exists_child
    have hget : get Fault.outOfRange c.node.children K₁.length = .ok d := hl.get_child hD.symm
    cases d with
    | none =>
      refine Or.inl ⟨_, hstay, fun n => ?_⟩
      rw [hstop.deleteKey_eq hother hl.capacity_le, hget]
      rfl
    | some child =>
      have hm : Misses c.node c.key K₁.length child := ⟨hstop, hother, get_eq_ok hget⟩
      obtain ⟨h', d, rfl, hd, -, -⟩ := Sits.descends ht ⟨hn, hpos, hmin⟩ hm
      cases d with
      | into node j child' => exact Or.inr ⟨_, .into hm hd⟩
      | fromRoot child' => exact Or.inr ⟨_, .fromRoot hm hd⟩

end

/-! ### A whole deletion -/

section

variable {t t' : Btree} {c c' : Call} {child : BtreeNode} {h : ℕ} {key : ℤ}

/-- The calls of a call sit below it. -/
theorem Calls.sits (ht : Params t) (hs : Sits t h c) (hc : Calls t c c') : ∃ h', Sits t h' c' := by
  induction hc with
  | refl => exact ⟨h, hs⟩
  | tail _ hstep ih =>
    obtain ⟨h', hs'⟩ := ih
    obtain ⟨h'', -, -, hs'', -⟩ := hstep.follows ht hs'
    exact ⟨h'', hs''⟩

/-- **A call that comes to no starved node ends well**. -/
theorem Sits.good (ht : Params t) (hs : Sits t h c) (hsp : ∀ c', Calls t c c' → ¬Starved t c') :
    ∃ out, Good t h c.isRoot out ∧ ∀ n, h < n → deleteKey t n c.node c.key = .ok out := by
  induction h generalizing c with
  | zero =>
    rcases hs.ends_or_calls ht (hsp c .refl) with ⟨out, hg, hrun⟩ | ⟨c', hstep⟩
    · refine ⟨out, hg, fun n hn => ?_⟩
      obtain ⟨n, rfl⟩ := Nat.exists_eq_succ_of_ne_zero hn.ne'
      exact hrun n
    · obtain ⟨h', -, hh, -⟩ := hstep.follows ht hs
      exact absurd hh (by simp)
  | succ h ih =>
    rcases hs.ends_or_calls ht (hsp c .refl) with ⟨out, hg, hrun⟩ | ⟨c', hstep⟩
    · refine ⟨out, hg, fun n hn => ?_⟩
      obtain ⟨n, rfl⟩ := Nat.exists_eq_succ_of_ne_zero (Nat.ne_zero_of_lt hn)
      exact hrun n
    · obtain ⟨h', post, hh, hs', hrun, hpost⟩ := hstep.follows ht hs
      obtain rfl : h = h' := by omega
      obtain ⟨out, hg, hout⟩ := ih hs' fun c'' hc'' => hsp c'' (.head hstep hc'')
      refine ⟨post out, hpost out hg, fun n hn => ?_⟩
      obtain ⟨n, rfl⟩ := Nat.exists_eq_succ_of_ne_zero (Nat.ne_zero_of_lt hn)
      rw [Nat.succ_eq_add_one, hrun, hout n (by omega)]
      rfl

/-- **A call that comes to a starved node** uses a freed node. -/
theorem Sits.useAfterFree (ht : Params t) (hs : Sits t h c) (hc : Calls t c c')
    (hst : Starved t c') : ∀ᶠ n in atTop, deleteKey t n c.node c.key = .error .useAfterFree := by
  induction hc using ReflTransGen.head_induction_on generalizing h with
  | refl =>
    refine (eventually_ge_atTop 1).mono fun n hn => ?_
    obtain ⟨n, rfl⟩ := Nat.exists_eq_succ_of_ne_zero (Nat.ne_zero_of_lt hn)
    exact hst.deleteKey_eq ht hs n
  | head hstep _ ih =>
    obtain ⟨h', post, rfl, hs', hrun, -⟩ := hstep.follows ht hs
    obtain ⟨N, hN⟩ := eventually_atTop.mp (ih hs')
    refine (eventually_ge_atTop (N + 1)).mono fun n hn => ?_
    obtain ⟨n, rfl⟩ := Nat.exists_eq_succ_of_ne_zero (Nat.ne_zero_of_lt hn)
    rw [Nat.succ_eq_add_one, hrun, hN n (by omega)]
    rfl

/-- Where nodes other than the root have at least two keys, only the root is starved. -/
theorem Starved.isRoot (hs : Sits t h c) (hst : Starved t c) (hmin : 2 ≤ t.kMinNum) :
    c.isRoot = true := by
  by_contra h₀
  have hle := (hs.2.2 (by simpa using h₀)).1
  have hone := hst.2.1
  omega

/-- **A node that is emptied without being starved** is the root, and all it holds goes to the
merged child. -/
theorem Empties.isRoot (ht : Params t) (hs : Sits t h c) (hst : ¬Starved t c)
    (he : Empties t c child) : c.isRoot = true ∧ ∀ k, c.node.Stores k → child.Stores k := by
  cases he with
  | found hf hright hlt₁ hleft hlt₂ hmerge =>
    obtain ⟨h', K₁, K₂, D₁, l, r, D₂, rfl, rfl, hD, hl, hkids⟩ := hf.focus hs.1
    have hl₀ : Live t c.node false (K₁ ++ c.key :: K₂) ((D₁ ++ [some l]) ++ some r :: D₂) := by
      simpa using hl
    have hleft' : childAt c.node K₁.length = .ok l := hl.childAt hD.symm
    have hright' : childAt c.node (K₁.length + 1) = .ok r := hl₀.childAt (by simp [hD])
    obtain rfl := Except.ok.inj (hleft'.symm.trans hleft)
    obtain rfl := Except.ok.inj (hright'.symm.trans hright)
    obtain ⟨d, hstep, hgoes, -⟩ := mergeInto_goes ht hl hD hkids hlt₂.le hlt₁.le
    obtain rfl := Except.ok.inj (hmerge.symm.trans hstep)
    have hone := hgoes.2.1
    obtain ⟨-, hlt, hkey, hleaf⟩ := hf
    have hzero : K₁.length = 0 := by omega
    rw [hzero] at hkey hleft hright
    exact absurd ⟨hleaf, hone, hkey, l, r, hleft, hright, hlt₂, hlt₁⟩ hst
  | onTheWay hm hd' =>
    obtain ⟨h', d, rfl, hd, hgoes, -⟩ := hs.descends ht hm
    obtain rfl := Except.ok.inj (hd'.symm.trans hd)
    exact ⟨hs.isRoot_of_misses (by simp) hm hgoes.2.1, hgoes.2.2⟩

/-- **The deletion of a key keeps the rest of the tree** if and only if none of its calls comes
to a starved node. -/
theorem unstarved_iff_keepsRest (ht : Params t) (hn : Shaped t (Loose t) h t.root)
    (hpos : h ≠ 0 → 0 < t.root.keyNum) : Unstarved t key ↔ KeepsRest t key := by
  have hs : Sits t h ⟨t.root, key, true⟩ := ⟨hn, hpos, fun h₀ => absurd h₀ (by simp)⟩
  constructor
  · intro hsp
    obtain ⟨out, -, hrun⟩ := hs.good ht hsp
    refine ⟨?_, fun c child hc he => ?_⟩
    · cases out with
      | kept root =>
        refine ⟨{ t with root := root }, (eventually_gt_atTop h).mono fun n hlt => ?_⟩
        rw [btreeDelete, hrun n hlt]
        rfl
      | newRoot root =>
        refine ⟨{ t with root := root }, (eventually_gt_atTop h).mono fun n hlt => ?_⟩
        rw [btreeDelete, hrun n hlt]
        rfl
    · obtain ⟨h', hs'⟩ := hc.sits ht hs
      exact he.isRoot ht hs' (hsp c hc)
  · rintro ⟨⟨t', hret⟩, -⟩ c hc hst
    obtain ⟨n, hok, herr⟩ := (hret.and (hs.useAfterFree ht hc hst)).exists
    rw [btreeDelete, herr] at hok
    exact absurd hok (by simp)

end

end BTree

end BackendStudy
