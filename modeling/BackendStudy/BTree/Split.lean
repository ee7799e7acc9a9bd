import BackendStudy.BTree.Bounds

/-!
# A split at every order

`btree_init_tree` rounds the order up to an even number before it takes the middle and the
smallest number of keys from it, and takes the largest number of keys from the order as it was
given. The two fit together at an even order only. At an odd one a full child has an even
number of keys, so its middle key does not stand between two halves of one size; the new
sibling still counts as many keys as the child keeps, which is one more than have been copied
(`BackendStudy.BTree.splitChild_order`). The key that it counts too many is the zero of the
allocation, and the child behind it is null.

So a split keeps the keys and the children exactly at the even orders
(`BackendStudy.BTree.splitChild_conserves_iff`).
-/

namespace BackendStudy

namespace BTree

open Slots

/-- **A tree of an order**: its header is the one that `btree_init_tree` writes. -/
def Btree.OfOrder (t : Btree) (order : ℕ) : Prop := t = { btreeInitTree order with root := t.root }

/-- **The split of the child `c`, in the cell `n` of its parent, keeps what the child holds**:
its keys are those of the child afterwards, the key moved up and those of the new sibling, in
this order, and if it is an internal node its children are those of the two. -/
def Conserves (t : Btree) (p : BtreeNode) (n : ℕ) (c : BtreeNode) : Prop :=
  ∃ p' c₁ m c₂, splitChild t p n = .ok p' ∧ childAt p' n = .ok c₁ ∧
    get Fault.outOfRange p'.keys n = .ok m ∧ childAt p' (n + 1) = .ok c₂ ∧
    c₁.liveKeys ++ m :: c₂.liveKeys = c.liveKeys ∧
    (c.isLeaf = false → c₁.liveChildren ++ c₂.liveChildren = c.liveChildren)

section

variable {t : Btree} {p c : BtreeNode} {lc : Bool} {order n : ℕ} {ks ks' : List ℤ}
  {ds ds' : List (Option BtreeNode)}

/-- **The numbers of a header.** An odd order leaves one key less behind the middle of a full
node than in front of it. -/
theorem Btree.OfOrder.numbers (ht : t.OfOrder order) (hle : 2 ≤ order) :
    t.kMidIdx = t.kMinNum ∧ t.kMaxNum < t.order ∧ t.kMinNum < t.kMaxNum ∧
      t.kMaxNum - (t.kMinNum + 1) + order % 2 = t.kMinNum := by
  have hmid : t.kMidIdx = (order % 2 + order) / 2 - 1 := congrArg Btree.kMidIdx ht
  have hmin : t.kMinNum = (order % 2 + order) / 2 - 1 := congrArg Btree.kMinNum ht
  have hmax : t.kMaxNum = order - 1 := congrArg Btree.kMaxNum ht
  have hord : t.order = order % 2 + order := congrArg Btree.order ht
  omega

/-- **A split at any order** leaves the keys and the children of the child, and at an odd order
a zero and a null pointer behind them. -/
theorem splitChild_order (ht : t.OfOrder order) (hle : 2 ≤ order) (hp : Live t p false ks ds)
    (hroom : p.keyNum < t.kMaxNum) (hn : n ≤ p.keyNum) (hchild : childAt p n = .ok c)
    (hc : Live t c lc ks' ds') (hfull : c.keyNum = t.kMaxNum) :
    ∃ p' c₁ m c₂, splitChild t p n = .ok p' ∧ childAt p' n = .ok c₁ ∧
      get Fault.outOfRange p'.keys n = .ok m ∧ childAt p' (n + 1) = .ok c₂ ∧
      c₁.liveKeys ++ m :: c₂.liveKeys = c.liveKeys ++ List.replicate (order % 2) 0 ∧
      c₁.liveChildren ++ c₂.liveChildren =
        c.liveChildren ++ List.replicate (order % 2) none := by
  obtain ⟨hmid, hord, hlt, hrear⟩ := ht.numbers hle
  obtain ⟨Ka, m, Kb, Da, Db, rfl, rfl, hKa, hKb, hDa⟩ := hc.cut_at hfull hlt
  have hcount := hp.count
  have hnum := hp.keyNum
  -- the parent, cut at the cell of the child
  obtain ⟨K₁, K₂, rfl, hK₁⟩ : ∃ K₁ K₂, ks = K₁ ++ K₂ ∧ n = K₁.length :=
    ⟨ks.take n, ks.drop n, by simp, by simp; omega⟩
  obtain ⟨D₁, d, D₂, rfl, hD⟩ := hp.exists_child
  have hD₁ : n = D₁.length := hK₁.trans hD.symm
  obtain rfl : d = some c := by
    rw [childAt, hp.get_child hD₁, ok_bind] at hchild
    cases d with
    | none => simp [deref] at hchild
    | some c' => simpa [deref] using hchild
  have hfull' : (Ka ++ m :: Kb).length = t.kMaxNum := hc.keyNum.symm.trans hfull
  obtain ⟨p', c₁, c₂, hsplit, hp', hc₁, hc₂⟩ :=
    splitChild_live hmid hord hp hK₁ hD (hp.keyNum ▸ hroom) hc hfull' hKa
      (by omega) hDa
  have hextra : t.kMinNum - Kb.length = order % 2 := by omega
  rw [hextra] at hc₂
  refine ⟨p', c₁, m, c₂, hsplit, hp'.childAt hD₁, hp'.get_key hK₁, ?_, ?_, ?_⟩
  · have hp'' : Live t p' false (K₁ ++ m :: K₂) ((D₁ ++ [some c₁]) ++ some c₂ :: D₂) := by
      simpa using hp'
    exact hp''.childAt (by simp [hD₁])
  · rw [hc₁.liveKeys_eq, hc₂.liveKeys_eq, hc.liveKeys_eq]
    simp
  · rw [hc₁.liveChildren_eq, hc₂.liveChildren_eq, hc.liveChildren_eq]
    simp

/-- A full leaf at the order 3, as two insertions leave it, and the new root over it. -/
def pairLeaf : BtreeNode := ⟨[1, 2], List.replicate 4 none, 2, true⟩

@[inherit_doc pairLeaf]
def pairRoot : BtreeNode := ⟨[0, 0], some pairLeaf :: List.replicate 3 none, 0, false⟩

/-- The third key of a tree of the order 3 splits its root, and the new sibling of the old root
then has a key that nothing has put there. -/
theorem not_conserves_pair : (btreeInitTree 3).OfOrder 3 ∧
    Live (btreeInitTree 3) pairRoot false [] [some pairLeaf] ∧
    pairRoot.keyNum < (btreeInitTree 3).kMaxNum ∧ childAt pairRoot 0 = .ok pairLeaf ∧
    Live (btreeInitTree 3) pairLeaf true [1, 2] [none, none, none] ∧
    pairLeaf.keyNum = (btreeInitTree 3).kMaxNum ∧
    ¬Conserves (btreeInitTree 3) pairRoot 0 pairLeaf := by
  have hroot : Live (btreeInitTree 3) pairRoot false [] [some pairLeaf] :=
    ⟨rfl, rfl, ⟨[0, 0], rfl⟩, rfl, ⟨[none, none, none], rfl⟩, rfl, rfl, by simp⟩
  have hleaf : Live (btreeInitTree 3) pairLeaf true [1, 2] [none, none, none] :=
    ⟨rfl, rfl, ⟨[], rfl⟩, rfl, ⟨[none], rfl⟩, rfl, rfl, by simp [pairLeaf]⟩
  refine ⟨rfl, hroot, by decide, rfl, hleaf, rfl, ?_⟩
  rintro ⟨p', c₁, m, c₂, hsplit, h₁, -, h₂, hkeys, -⟩
  obtain rfl : _ = p' := Except.ok.inj hsplit
  obtain rfl : _ = c₁ := Except.ok.inj h₁
  obtain rfl : _ = c₂ := Except.ok.inj h₂
  exact absurd (congrArg List.length hkeys) (by simp [BtreeNode.liveKeys, pairLeaf, createNode,
    btreeInitTree])

/-- **A split keeps the keys and the children of a full child exactly at an even order**: for
every parent with room and every full child of it, in a tree of any order that
`btree_init_tree` accepts. -/
theorem splitChild_conserves_iff (ht : t.OfOrder order) (hle : 2 ≤ order)
    (hp : Live t p false ks ds) (hroom : p.keyNum < t.kMaxNum) (hn : n ≤ p.keyNum)
    (hchild : childAt p n = .ok c) (hc : Live t c lc ks' ds') (hfull : c.keyNum = t.kMaxNum) :
    Conserves t p n c ↔ order % 2 = 0 := by
  obtain ⟨p', c₁, m, c₂, hsplit, h₁, hm, h₂, hkeys, hchildren⟩ :=
    splitChild_order ht hle hp hroom hn hchild hc hfull
  constructor
  · rintro ⟨p'', c₁', m', c₂', hsplit', h₁', hm', h₂', hkeys', -⟩
    -- the call returns one parent, so the two sequences are of one child
    obtain rfl := Except.ok.inj (hsplit.symm.trans hsplit')
    obtain rfl := Except.ok.inj (h₁.symm.trans h₁')
    obtain rfl := Except.ok.inj (h₂.symm.trans h₂')
    obtain rfl := Except.ok.inj (hm.symm.trans hm')
    have hlen := congrArg List.length (hkeys.symm.trans hkeys')
    simpa using hlen
  · intro heven
    rw [heven] at hkeys hchildren
    exact ⟨p', c₁, m, c₂, hsplit, h₁, hm, h₂, by simpa using hkeys,
      fun _ => by simpa using hchildren⟩

/-- A full leaf at the order 4 and the new root over it. -/
theorem splitChild_conserves_sample :
    Conserves (btreeInitTree 4) ⟨[0, 0, 0], some ⟨[1, 2, 3], [none, none, none, none], 3, true⟩ ::
      [none, none, none], 0, false⟩ 0 ⟨[1, 2, 3], [none, none, none, none], 3, true⟩ := by
  have hp : Live (btreeInitTree 4) ⟨[0, 0, 0],
      some ⟨[1, 2, 3], [none, none, none, none], 3, true⟩ :: [none, none, none], 0, false⟩ false []
      [some ⟨[1, 2, 3], [none, none, none, none], 3, true⟩] :=
    ⟨rfl, rfl, ⟨[0, 0, 0], rfl⟩, rfl, ⟨[none, none, none], rfl⟩, rfl, rfl, by simp⟩
  have hc : Live (btreeInitTree 4) ⟨[1, 2, 3], [none, none, none, none], 3, true⟩ true [1, 2, 3]
      [none, none, none, none] := ⟨rfl, rfl, ⟨[], rfl⟩, rfl, ⟨[], rfl⟩, rfl, rfl, by simp⟩
  have ht : (btreeInitTree 4).OfOrder 4 := rfl
  exact (splitChild_conserves_iff ht (by decide) hp (by decide) le_rfl rfl hc rfl).mpr rfl

end

end BTree

end BackendStudy
