import BackendStudy.BTree.Emptied

/-!
# Hollow nodes

Which deletions come to a starved node can be read off the tree before them. On the way to its key
a deletion gives every node a second key before it enters it, and where it has found the key above
the leaves it goes on in the child behind it, and from there through second children to a leaf
(`BackendStudy.BTree.BtreeNode.Second`), as long as there is a key to take. So it is starved by a
node on that way with one key between two children that have too few
(`BackendStudy.BTree.Hollow`), which only a tree of order 4 has.

The search for the key is the one in the tree as it is (`BackendStudy.BTree.Visits`): the keys that
a node is given do not lead it elsewhere, but for a last child that is merged with the one before
it, in which a key may be out of order.
-/

namespace BackendStudy

namespace BTree

open Slots Filter Relation

/-! ### The search for a key -/

/-- The place of the first key of a node that is not below `key`. -/
def BtreeNode.stop (node : BtreeNode) (key : ℤ) : ℕ := (node.liveKeys.takeWhile (· < key)).length

/-- **The nodes that the search for `key` comes to.** From the last child it may turn to the one
before it, if both have too few keys to go without and a key of that one is out of order. -/
inductive Visits (t : Btree) (key : ℤ) : BtreeNode → Prop
  /-- The root. -/
  | root : Visits t key t.root
  /-- The child in front of the first key that is not below `key`. -/
  | child {node c : BtreeNode} : Visits t key node → node.liveKeys[node.stop key]? ≠ some key →
      node.liveChildren[node.stop key]? = some (some c) → Visits t key c
  /-- The child before the last. -/
  | before {node c s : BtreeNode} {k : ℤ} : Visits t key node → node.stop key = node.keyNum →
      node.liveChildren[node.keyNum]? = some (some c) → c.keyNum ≤ t.kMinNum →
      node.liveChildren[node.keyNum - 1]? = some (some s) → s.keyNum ≤ t.kMinNum →
      k ∈ s.liveKeys → key ≤ k → Visits t key s

/-- **The search for `key` is straight**: what stands before the last child is below `key`, where
the search goes on in that child. -/
def Straight (t : Btree) (key : ℤ) : Prop :=
  ∀ node s, Visits t key node → node.stop key = node.keyNum →
    node.liveChildren[node.keyNum - 1]? = some (some s) → ∀ k ∈ s.liveKeys, k < key

/-- A node with one key between two children that both have fewer keys than the smallest number. -/
def Hollow (t : Btree) (node : BtreeNode) : Prop :=
  ∃ l r, node.liveChildren = [some l, some r] ∧ l.keyNum < t.kMinNum ∧ r.keyNum < t.kMinNum

/-- The nodes on the way down through second children. -/
inductive BtreeNode.Second : BtreeNode → BtreeNode → Prop
  /-- The node. -/
  | refl {node : BtreeNode} : node.Second node
  /-- Below its second child. -/
  | child {node c d : BtreeNode} : node.liveChildren[1]? = some (some c) → c.Second d →
      node.Second d

/-- **The deletion of `key` spares the rest of the tree.** The root is not hollow with `key` as its
key, and in a tree of order 4 no hollow node is on the way down from the child behind `key`, where
the search finds it. -/
structure Spares (t : Btree) (key : ℤ) : Prop where
  root : t.root.liveKeys = [key] → ¬Hollow t t.root
  below : t.kMinNum = 1 → ∀ node r d, Visits t key node →
    node.liveKeys[node.stop key]? = some key →
    node.liveChildren[node.stop key + 1]? = some (some r) → r.Second d → ¬Hollow t d

/-- The child that a descent goes to. -/
def Descent.child : Descent → BtreeNode
  | .into _ _ child => child
  | .fromRoot child => child

/-- **A node that has been given cells** in front of those of `z` and behind them, without another
place for `key`. -/
def Covers (t : Btree) (key : ℤ) (node z : BtreeNode) : Prop :=
  ∃ lf ks ds A B DA DB, Live t z lf ks ds ∧ Live t node lf (A ++ ks ++ B) (DA ++ ds ++ DB) ∧
    DA.length = A.length ∧ (∀ a ∈ A, a < key) ∧ ((∀ k ∈ ks, k < key) → ∀ b ∈ B.head?, key < b) ∧
    (lf = false → 0 < ks.length)

/-- Where a descent to the child `c` goes: to a node that covers `c`, or, if `c` is the last child
and has been merged, the one before it, in which a key is out of order. -/
def Leads (t : Btree) (key : ℤ) (c : BtreeNode) (K₂ : List ℤ) (D₁ : List (Option BtreeNode))
    (d : Descent) : Prop :=
  Covers t key d.child c ∨ ∃ D s k, K₂ = [] ∧ D₁ = D ++ [some s] ∧ Covers t key d.child s ∧
    c.keyNum ≤ t.kMinNum ∧ s.keyNum ≤ t.kMinNum ∧ k ∈ s.liveKeys ∧ key ≤ k

section

variable {t : Btree} {node z c d r s : BtreeNode} {x x' : Call} {h i : ℕ} {key k : ℤ}
  {lf lf' : Bool} {ks A B K₁ K₂ Ka Kb : List ℤ} {ds DA DB D₁ D₂ Da Db : List (Option BtreeNode)}

/-! ### A node with more cells -/

theorem Live.covers (hl : Live t z lf ks ds) (hpos : lf = false → 0 < ks.length) :
    Covers t key z z :=
  ⟨lf, ks, ds, [], [], [], [], hl, by simpa using hl, rfl, by simp, by simp, hpos⟩

/-- The place for `key` is among the cells of `z`. -/
theorem takeWhile_covered (hA : ∀ a ∈ A, a < key)
    (hB : (∀ k ∈ ks, k < key) → ∀ b ∈ B.head?, key < b) :
    (A ++ ks ++ B).takeWhile (· < key) = A ++ ks.takeWhile (· < key) := by
  rw [List.append_assoc, List.takeWhile_append_of_pos (by simpa using hA)]
  congr 1
  rw [List.takeWhile_append]
  split_ifs with hall
  · have hks : ks.takeWhile (· < key) = ks :=
      (List.takeWhile_prefix _).eq_of_length hall
    rw [hks]
    have hB' := hB fun k hk => by simpa using List.takeWhile_eq_self_iff.mp hks k hk
    cases B with
    | nil => simp
    | cons b B =>
      have hb : key < b := hB' b rfl
      rw [List.takeWhile_cons_of_neg (by simpa using hb.le), List.append_nil]
  · rfl

/-- What stands at that place. -/
theorem getElem?_covered {α : Type*} {A K B : List α} {j : ℕ} (hj : j < K.length) :
    (A ++ K ++ B)[A.length + j]? = K[j]? := by
  rw [List.append_assoc, List.getElem?_append_right (by omega), Nat.add_sub_cancel_left,
    List.getElem?_append_left hj]

theorem Live.stop_eq (hl : Live t node lf ks ds) :
    node.stop key = (ks.takeWhile (· < key)).length := by
  rw [BtreeNode.stop, hl.liveKeys_eq]

theorem Live.stop_le (hl : Live t node lf ks ds) : node.stop key ≤ ks.length := by
  rw [hl.stop_eq]
  exact (List.takeWhile_prefix _).length_le

/-- The search loop stops there. -/
theorem Live.findKey_stop (hl : Live t node lf ks ds) :
    findKey key node.keys 0 node.keyNum = .ok (node.stop key) := by
  rw [hl.stop_eq]
  exact hl.findKey_takeWhile key

/-- The search loop at a node that covers `z` stops at its place in `z`. -/
theorem Covers.stops (h : Covers t key node z) :
    ∃ lf ks ds A B DA DB, Live t z lf ks ds ∧ Live t node lf (A ++ ks ++ B) (DA ++ ds ++ DB) ∧
      findKey key node.keys 0 node.keyNum = .ok (A.length + z.stop key) ∧
      (lf = false → 0 < ks.length) ∧
      ∀ j ≤ ks.length, (DA ++ ds ++ DB)[A.length + j]? = z.liveChildren[j]? := by
  obtain ⟨lf, ks, ds, A, B, DA, DB, hz, hl, hD, hA, hB, hpos⟩ := h
  refine ⟨lf, ks, ds, A, B, DA, DB, hz, hl, ?_, hpos, fun j hj => ?_⟩
  · rw [hl.findKey_stop, hl.stop_eq, hz.stop_eq, takeWhile_covered hA hB, List.length_append]
  · rw [hz.liveChildren_eq, ← hD]
    exact getElem?_covered (by rw [hz.count]; omega)

/-- Below `z` the key is found exactly where it is found in `z`. -/
theorem Covers.found_iff (h : Covers t key node z)
    (hstop : findKey key node.keys 0 node.keyNum = .ok i) :
    i < node.keyNum ∧ node.keys[i]? = some key ↔ z.liveKeys[z.stop key]? = some key := by
  obtain ⟨lf, ks, ds, A, B, DA, DB, hz, hl, hD, hA, hB, -⟩ := h
  have hi : i = A.length + z.stop key := by
    refine Except.ok.inj (hstop.symm.trans ?_)
    rw [hl.findKey_stop, hl.stop_eq, hz.stop_eq, takeWhile_covered hA hB, List.length_append]
  have hlive : i < node.keyNum ∧ node.keys[i]? = some key ↔ (A ++ ks ++ B)[i]? = some key := by
    obtain ⟨rest, hrest⟩ := hl.keys
    rw [hrest, hl.keyNum]
    constructor
    · rintro ⟨hlt, hkey⟩
      rwa [List.getElem?_append_left hlt] at hkey
    · intro hkey
      have hlt := (List.getElem?_eq_some_iff.mp hkey).1
      exact ⟨hlt, by rw [List.getElem?_append_left hlt, hkey]⟩
  rw [hlive, hz.liveKeys_eq, hi]
  rcases hz.stop_le.lt_or_eq with hlt | heq
  · rw [getElem?_covered hlt]
  · -- behind the keys of `z` stands a greater one
    have hall : ∀ k ∈ ks, k < key := by
      have hks : ks.takeWhile (· < key) = ks :=
        (List.takeWhile_prefix _).eq_of_length (hz.stop_eq.symm.trans heq)
      exact fun k hk => by simpa using List.takeWhile_eq_self_iff.mp hks k hk
    rw [heq, List.getElem?_eq_none (le_refl ks.length), ← List.length_append,
      List.getElem?_append_right (le_refl _), Nat.sub_self]
    refine iff_of_false (fun hb => ?_) (by simp)
    rw [← List.head?_eq_getElem?] at hb
    exact absurd (hB hall key hb) (lt_irrefl key)

/-! ### The descent -/

@[simp] theorem child_into : (Descent.into node i c).child = c := rfl

@[simp] theorem child_fromRoot : (Descent.fromRoot c).child = c := rfl

/-- The child that two children are merged to. -/
theorem mergeInto_child {k : ℤ} (ht : Params t)
    (hl : Live t node false (K₁ ++ k :: K₂) (D₁ ++ some c :: some s :: D₂))
    (hD : D₁.length = K₁.length) (hc : Live t c lf Ka Da) (hs : Live t s lf Kb Db)
    (hfit : Ka.length + (1 + Kb.length) ≤ t.kMaxNum) :
    ∃ d, mergeInto node K₁.length = .ok d ∧ Live t d.child lf (Ka ++ k :: Kb) (Da ++ Db) := by
  obtain ⟨c', hc', ⟨-, hstep⟩ | ⟨-, p', hstep, -⟩⟩ := mergeChildren_spec ht hl rfl hD hc hs hfit
  · exact ⟨.fromRoot c', by rw [mergeInto, hstep]; rfl, hc'⟩
  · exact ⟨.into p' K₁.length c', by rw [mergeInto, hstep]; rfl, hc'⟩

/-- A child with the cells of a node of the shape. -/
theorem Loose.pos (hc : Loose t h c) (hk : Kids t (Loose t) h lf Da) (hl : Live t c lf Ka Da) :
    lf = false → 0 < Ka.length := by
  intro hlf
  rw [← hl.keyNum]
  exact hc.2 (by simpa [hlf] using hk.leaf_eq)

/-- What the right sibling of a child gives it stands behind the key. -/
theorem helps_right_leads {k : ℤ} (ht : Params t)
    (hl : Live t node false (K₁ ++ k :: K₂) (D₁ ++ some c :: D₂)) (hD : D₁.length = K₁.length)
    (hk : Kids t (Loose t) (h + 1) false (D₁ ++ some c :: D₂)) (hle : c.keyNum ≤ t.kMinNum)
    (hkey : key < k) :
    Helps t node K₁.length (K₁.length + 1) K₁.length True (borrowRight node c · K₁.length)
      (Leads t key c (k :: K₂) D₁) := by
  have hmin := ht.min_pos
  have hmax := ht.max
  have hcount := hl.count
  simp only [List.length_append, List.length_cons] at hcount
  obtain ⟨d, D, rfl⟩ := List.exists_cons_of_length_pos (show 0 < D₂.length by omega)
  rw [kids_append, kids_cons, kids_some, kids_cons] at hk
  obtain ⟨-, ⟨hcl, hc⟩, hks, -⟩ := hk
  obtain ⟨s, rfl, -, hs⟩ := hks.2 d List.mem_cons_self
  obtain ⟨lf, Ka, Da, ha, hka⟩ := shaped_iff.mp hc
  obtain ⟨lf', Kb, Db, hb, hkb⟩ := shaped_iff.mp hs
  obtain rfl : lf = lf' := hka.leaf_eq.trans hkb.leaf_eq.symm
  have hanum := ha.keyNum
  have hbnum := hb.keyNum
  -- what comes behind the cells of the child starts with a key above `key`
  have hhead : ∀ K : List ℤ, (∀ a ∈ Ka, a < key) → ∀ b ∈ (k :: K).head?, key < b := by
    intro K _ b hb
    obtain rfl := Option.some.inj hb
    exact hkey
  have hl' : Live t node false (K₁ ++ k :: K₂) ((D₁ ++ [some c]) ++ some s :: D) := by
    simpa using hl
  refine ⟨s, hl'.get_child (by simp [hD]), ?_⟩
  by_cases hgive : s.keyNum > t.kMinNum
  · obtain ⟨k', Kb, rfl⟩ := List.exists_cons_of_length_pos (show 0 < Kb.length by omega)
    obtain ⟨e, Db, rfl⟩ := List.exists_cons_of_length_eq_add_one hb.count
    obtain ⟨node', c', s', hstep, -, hc', -⟩ := borrowRight_spec ht hl rfl hD ha (by omega) hb
    exact Or.inl ⟨hgive, node', c', hstep, Or.inl ⟨lf, Ka, Da, [], [k], [], [e], ha,
      by simpa using hc', rfl, by simp, hhead [], hcl.pos hka ha⟩⟩
  -- the sibling has nothing to give: the child is the front part of what they are merged to
  · obtain ⟨d, hstep, hc'⟩ := mergeInto_child ht hl hD ha hb (by omega)
    exact Or.inr ⟨hgive, fun _ => ⟨d, hstep, Or.inl ⟨lf, Ka, Da, [], k :: Kb, [], Db, ha,
      by simpa using hc', rfl, by simp, hhead Kb, hcl.pos hka ha⟩⟩⟩

/-- What its left sibling gives it stands in front, unless a key of a sibling that it is merged with
is out of order. -/
theorem helps_left_leads {k : ℤ} (ht : Params t)
    (hl : Live t node false (K₁ ++ k :: K₂) (D₁ ++ some s :: some c :: D₂))
    (hD : D₁.length = K₁.length)
    (hk : Kids t (Loose t) (h + 1) false (D₁ ++ some s :: some c :: D₂))
    (hle : c.keyNum ≤ t.kMinNum) (hkey : k < key) :
    Helps t node (K₁.length + 1) K₁.length K₁.length (K₂ = []) (borrowLeft node c · (K₁.length + 1))
      (Leads t key c K₂ (D₁ ++ [some s])) := by
  have hmin := ht.min_pos
  have hmax := ht.max
  rw [kids_append, kids_cons, kids_some, kids_cons, kids_some] at hk
  obtain ⟨-, ⟨hsl, hs⟩, ⟨hcl, hc⟩, -⟩ := hk
  obtain ⟨lf, Ka, Da, ha, hka⟩ := shaped_iff.mp hc
  obtain ⟨lf', Kb, Db, hb, hkb⟩ := shaped_iff.mp hs
  obtain rfl : lf = lf' := hka.leaf_eq.trans hkb.leaf_eq.symm
  have hanum := ha.keyNum
  have hbnum := hb.keyNum
  have hbcount := hb.count
  refine ⟨s, hl.get_child hD.symm, ?_⟩
  by_cases hgive : s.keyNum > t.kMinNum
  · obtain ⟨Kb, k', rfl⟩ := exists_last (show 0 < Kb.length by omega)
    obtain ⟨Db, e, rfl⟩ := exists_last (show 0 < Db.length by omega)
    obtain ⟨node', c', s', hstep, -, hc', -⟩ := borrowLeft_spec ht hl rfl hD ha (by omega) hb
    exact Or.inl ⟨hgive, node', c', hstep, Or.inl ⟨lf, Ka, Da, [k], [], [e], [], ha,
      by simpa using hc', rfl, by simpa using hkey, by simp, hcl.pos hka ha⟩⟩
  · refine Or.inr ⟨hgive, fun hnil => ?_⟩
    obtain ⟨d, hstep, hc'⟩ := mergeInto_child ht hl hD hb ha (by omega)
    refine ⟨d, hstep, ?_⟩
    -- the last child is the rear part of the merged one, and the search gets past its front part
    -- unless a key there is out of order
    by_cases hall : ∀ b ∈ Kb, b < key
    · refine Or.inl ⟨lf, Ka, Da, Kb ++ [k], [], Db, [], ha, by simpa using hc', ?_, ?_, by simp,
        hcl.pos hka ha⟩
      · rw [hb.count, List.length_append, List.length_singleton]
      · intro a hmem
        rcases List.mem_append.mp hmem with hmem | hmem
        · exact hall a hmem
        · exact List.mem_singleton.mp hmem ▸ hkey
    · obtain ⟨b, hmem, hkb'⟩ : ∃ b ∈ Kb, key ≤ b := by
        by_contra hno
        exact hall fun b hb => not_le.mp fun hle => hno ⟨b, hb, hle⟩
      refine Or.inr ⟨D₁, s, b, hnil, rfl, ?_, hle, not_lt.mp hgive, hb.liveKeys_eq.symm ▸ hmem,
        hkb'⟩
      exact ⟨lf, Kb, Db, [], k :: Ka, [], Da, hb, by simpa using hc', rfl, by simp,
        fun hlt => absurd (hlt b hmem) (not_lt.mpr hkb'), hsl.pos hkb hb⟩

/-- **The descent leads on in the search.** -/
theorem descent_leads (ht : Params t) (hl : Live t node false (K₁ ++ K₂) (D₁ ++ some c :: D₂))
    (hD : D₁.length = K₁.length) (hk : Kids t (Loose t) (h + 1) false (D₁ ++ some c :: D₂))
    (hpos : 0 < node.keyNum) (hK₁ : ∀ a ∈ K₁, a < key) (hK₂ : ∀ b ∈ K₂.head?, key < b) :
    ∃ d, descent t node c K₁.length = .ok d ∧ Leads t key c K₂ D₁ d := by
  by_cases hle : c.keyNum ≤ t.kMinNum
  · rw [descent, if_pos hle]
    refine refill_of_helps hl.keyNum hpos (fun hne => ?_) fun hne => ?_
    · obtain ⟨k, K₂, rfl⟩ := List.exists_cons_of_ne_nil hne
      exact helps_right_leads ht hl hD hk hle (hK₂ k rfl)
    · obtain ⟨K, k, rfl⟩ := exists_last (List.length_pos_iff.mpr hne)
      obtain ⟨D, d, rfl⟩ := exists_last (hD ▸ List.length_pos_iff.mpr hne)
      obtain ⟨s, rfl, -⟩ := hk.2 d (by simp)
      rw [List.length_append, List.length_singleton, Nat.add_sub_cancel]
      exact helps_left_leads ht (by simpa using hl) (by simpa using hD) (by simpa using hk) hle
        (hK₁ k (by simp))
  · obtain ⟨hcl, hc⟩ := kids_some.mp (kids_cons.mp (kids_append.mp hk).2).1
    obtain ⟨lf, Ka, Da, ha, hka⟩ := shaped_iff.mp hc
    rw [descent, if_neg hle]
    exact ⟨_, rfl, Or.inl (ha.covers (hcl.pos hka ha))⟩

/-! ### Down through second children -/

/-- A leaf makes no call. -/
theorem Sits.leaf (ht : Params t) (hs : Sits t 0 x) (hc : Calls t x x') : ¬Starved t x' := by
  obtain rfl | ⟨y, hstep, -⟩ := hc.cases_head
  · rintro ⟨hleaf, -⟩
    obtain ⟨ks, ds, hl⟩ := hs.1
    exact absurd (hl.isLeaf.symm.trans hleaf) (by simp)
  · obtain ⟨h', -, hh, -⟩ := hstep.follows ht hs
    exact absurd hh (by simp)

/-- The cell of a child. -/
theorem getElem?_of_childAt (h : BTree.childAt node i = .ok c) :
    node.children[i]? = some (some c) := by
  unfold BTree.childAt at h
  obtain ⟨d, hd, hc⟩ := bind_eq_ok h
  cases d with
  | none => exact nomatch hc
  | some d =>
    obtain rfl := Except.ok.inj hc
    exact get_eq_ok hd

theorem childAt_of_getElem? (h : node.children[i]? = some (some c)) :
    BTree.childAt node i = .ok c := by
  rw [BTree.childAt, get_of_getElem? h]
  rfl

/-- A starved call is one at a hollow node with the key. -/
theorem starved_iff (hl : Live t x.node lf ks ds) :
    Starved t x ↔ Hollow t x.node ∧ x.node.liveKeys = [x.key] := by
  obtain ⟨rest, hrest⟩ := hl.keys
  have hcount := hl.count
  rw [Hollow, hl.liveKeys_eq, hl.liveChildren_eq]
  constructor
  · rintro ⟨-, hone, hkey, l, r, hleft, hright, hlt, hlt'⟩
    obtain ⟨k, rfl⟩ := List.length_eq_one_iff.mp (hl.keyNum.symm.trans hone)
    obtain ⟨d, d', rfl⟩ := List.length_eq_two.mp hcount
    obtain rfl : k = x.key := by simpa [hrest] using hkey
    obtain ⟨rest', hrest'⟩ := hl.children
    obtain rfl : d = some l := by simpa [hrest'] using getElem?_of_childAt hleft
    obtain rfl : d' = some r := by simpa [hrest'] using getElem?_of_childAt hright
    exact ⟨⟨l, r, rfl, hlt, hlt'⟩, rfl⟩
  · rintro ⟨⟨l, r, rfl, hlt, hlt'⟩, rfl⟩
    have hleaf : lf = false := by
      cases lf with
      | false => rfl
      | true => exact absurd (hl.ds_null rfl (some l) List.mem_cons_self) (by simp)
    have hl₀ : Live t x.node lf [x.key] ([] ++ some l :: [some r]) := hl
    have hl₁ : Live t x.node lf [x.key] ([some l] ++ some r :: []) := hl
    exact ⟨hl.isLeaf.trans hleaf, hl.keyNum, get_eq_ok hl.get_head, l, r, hl₀.childAt rfl,
      hl₁.childAt rfl, hlt, hlt'⟩

/-- A node above a hollow one, or hollow itself, has a key. -/
theorem BtreeNode.Second.keyNum_pos (h : node.Second d) (hd : Hollow t d)
    (hl : Live t node lf ks ds) : 0 < node.keyNum := by
  have hcount := hl.count
  have hlive := hl.liveChildren_eq
  rw [hl.keyNum]
  cases h with
  | refl =>
    obtain ⟨l, r, hlr, -⟩ := hd
    rw [← hlive, hlr] at hcount
    simp only [List.length_cons, List.length_nil] at hcount
    omega
  | child hc =>
    have hlt := (List.getElem?_eq_some_iff.mp hc).1
    rw [hlive] at hlt
    omega

/-- A call above the leaves that finds its key in front, with the second child of its node. -/
theorem Sits.exists_second (hs : Sits t (h + 1) x) (hkey : x.node.liveKeys.head? = some x.key) :
    ∃ ks l r ds, Live t x.node false (x.key :: ks) (some l :: some r :: ds) ∧
      Shaped t (Loose t) h r ∧ Finds x.node x.key 0 ∧ BTree.childAt x.node 1 = .ok r := by
  obtain ⟨ks, ds, hl, hk⟩ := hs.1
  rw [hl.liveKeys_eq] at hkey
  obtain ⟨k, ks, rfl⟩ := List.exists_cons_of_ne_nil (show ks ≠ [] by rintro rfl; simp at hkey)
  obtain rfl : k = x.key := Option.some.inj hkey
  have hcount := hl.count
  rw [List.length_cons] at hcount
  obtain ⟨d₀, ds, rfl⟩ := List.exists_cons_of_length_eq_add_one hcount
  obtain ⟨d₁, ds, rfl⟩ := List.exists_cons_of_length_eq_add_one (Nat.succ.inj hcount)
  obtain ⟨l, rfl, -, -⟩ := hk d₀ List.mem_cons_self
  obtain ⟨r, rfl, -, hr⟩ := hk d₁ (List.mem_cons_of_mem _ List.mem_cons_self)
  have hl₁ : Live t x.node false (x.key :: ks) ([some l] ++ some r :: ds) := hl
  have hstop : findKey x.key x.node.keys 0 x.node.keyNum = .ok 0 := by
    rw [hl.findKey_stop, hl.stop_eq, List.takeWhile_cons_of_neg (by simp)]
    rfl
  have hpos : 0 < x.node.keyNum := by
    rw [hl.keyNum]
    exact Nat.succ_pos _
  exact ⟨ks, l, r, ds, hl, hr, ⟨⟨hpos.ne', hstop⟩, hpos, get_eq_ok hl.get_head, hl.isLeaf⟩,
    hl₁.childAt rfl⟩

/-- In a tree of order 4 a child without enough keys is a leaf. -/
theorem Finds.height_eq_zero (hone : t.kMinNum = 1) (hf : Finds node key i)
    (hn : Shaped t (Loose t) (h + 1) node) (hright : BTree.childAt node (i + 1) = .ok r)
    (hlt : r.keyNum < t.kMinNum) : h = 0 := by
  obtain ⟨h', K₁, K₂, D₁, l, r', D₂, hh, rfl, hD, hl, hk⟩ := hf.focus hn
  obtain rfl : h = h' := by omega
  have hl' : Live t node false (K₁ ++ key :: K₂) ((D₁ ++ [some l]) ++ some r' :: D₂) := by
    simpa using hl
  obtain rfl : r' = r := Except.ok.inj ((hl'.childAt (by simp [hD])).symm.trans hright)
  rw [kids_append, kids_cons, kids_some, kids_cons, kids_some] at hk
  by_contra h₀
  have := hk.2.2.1.1.2 h₀
  omega

/-- The key that a call is made with, where it is read in front. -/
theorem Sits.head_eq {k : ℤ} (hs : Sits t h ⟨r, k, false⟩) (ht : Params t)
    (hk : r.keys[0]? = some k) : r.liveKeys.head? = some k := by
  obtain ⟨lf, ks, ds, hl, -⟩ := shaped_iff.mp hs.1
  have hpos := ht.min_pos.trans (hs.2.2 rfl).1
  obtain ⟨k', ks, rfl⟩ := List.exists_cons_of_length_pos (hl.keyNum ▸ hpos)
  obtain rfl := Option.some.inj (hk.symm.trans (get_eq_ok hl.get_head))
  rw [hl.liveKeys_eq]
  rfl

/-- **In a tree of order 4, a call that finds its key in front** goes on through second children
only. -/
theorem Sits.second_of_starved (ht : Params t) (hone : t.kMinNum = 1) (hs : Sits t h x)
    (hkey : x.node.liveKeys.head? = some x.key) (hc : Calls t x x') (hst : Starved t x') :
    ∃ d, x.node.Second d ∧ Hollow t d := by
  induction h generalizing x with
  | zero => exact absurd hst (hs.leaf ht hc)
  | succ h ih =>
    obtain ⟨ks, l, r, ds, hl, hr, hfind, hright⟩ := hs.exists_second hkey
    obtain rfl | ⟨y, hstep, hrest⟩ := hc.cases_head
    · exact ⟨_, .refl, ((starved_iff hl).mp hst).1⟩
    obtain ⟨h', -, hh, hy, -⟩ := hstep.follows ht hs
    obtain rfl : h' = h := by omega
    cases hstep with
    | @right i right k hf hright' hge hk =>
      obtain rfl : i = 0 := Except.ok.inj (hf.1.2.symm.trans hfind.1.2)
      obtain rfl : right = r := Except.ok.inj (hright'.symm.trans hright)
      obtain ⟨d, hd, hhollow⟩ := ih hy (hy.head_eq ht hk) hrest
      exact ⟨d, .child (by rw [hl.liveChildren_eq]; rfl) hd, hhollow⟩
    | left hf hright' hlt =>
      obtain rfl := hf.height_eq_zero hone hs.1 hright' hlt
      exact absurd hst (hy.leaf ht hrest)
    | merged hf hright' hlt =>
      obtain rfl := hf.height_eq_zero hone hs.1 hright' hlt
      exact absurd hst (hy.leaf ht hrest)
    | into hm => exact absurd (get_eq_ok hl.get_head) hm.head_ne
    | fromRoot hm => exact absurd (get_eq_ok hl.get_head) hm.head_ne

/-- **It is starved** where they end in a hollow node. -/
theorem Sits.starved_of_second (ht : Params t) (hone : t.kMinNum = 1) (hs : Sits t h x)
    (hkey : x.node.liveKeys.head? = some x.key) (hd : x.node.Second d) (hhollow : Hollow t d) :
    ∃ x', Calls t x x' ∧ Starved t x' := by
  -- by the height: the hollow node is this one, or below the second child, where the deletion goes
  -- on with its smallest key
  induction h generalizing x with
  | zero =>
    obtain ⟨ks, ds, hl⟩ := hs.1
    have hnull := hl.ds_null rfl
    rw [← hl.liveChildren_eq] at hnull
    cases hd with
    | refl =>
      obtain ⟨l, r, hlr, -⟩ := hhollow
      exact absurd (hnull (some l) (by rw [hlr]; exact List.mem_cons_self)) (by simp)
    | @child _ c _ hc => exact absurd (hnull (some c) (List.mem_of_getElem? hc)) (by simp)
  | succ h ih =>
    obtain ⟨ks, l, r, ds, hl, hr, hfind, hright⟩ := hs.exists_second hkey
    obtain ⟨lf, kr, dr, hlr, -⟩ := shaped_iff.mp hr
    have hcount := hl.count
    cases hd with
    | refl =>
      refine ⟨x, .refl, (starved_iff hl).mpr ⟨hhollow, ?_⟩⟩
      obtain ⟨l', r', hlr', -⟩ := hhollow
      rw [hl.liveChildren_eq] at hlr'
      have hlen := congrArg List.length hlr'
      simp only [List.length_cons, List.length_nil] at hlen hcount
      rw [hl.liveKeys_eq, List.length_eq_zero_iff.mp (show ks.length = 0 by omega)]
    | @child _ c _ hc hd =>
      rw [hl.liveChildren_eq] at hc
      obtain rfl : r = c := Option.some.inj (Option.some.inj hc)
      -- a node above a hollow one has a key that can be taken
      have hrpos := hd.keyNum_pos hhollow hlr
      obtain ⟨kr₀, kr, rfl⟩ := List.exists_cons_of_length_pos (hlr.keyNum ▸ hrpos)
      have hstep := CallStep.right (k := kr₀) hfind hright
        (show t.kMinNum ≤ r.keyNum by omega) (get_eq_ok hlr.get_head)
      obtain ⟨h', -, hh, hy, -⟩ := hstep.follows ht hs
      obtain rfl : h' = h := by omega
      obtain ⟨x', hc', hst⟩ := ih hy (by rw [hlr.liveKeys_eq]; rfl) hd
      exact ⟨x', .head hstep hc', hst⟩

/-! ### Along the search -/

/-- A node with a child that the search goes to is not a leaf. -/
theorem Live.leaf_eq_false {j : ℕ} (hl : Live t node lf ks ds)
    (hc : node.liveChildren[j]? = some (some c)) : lf = false := by
  rw [hl.liveChildren_eq] at hc
  cases lf with
  | false => rfl
  | true => exact absurd (hl.ds_null rfl (some c) (List.mem_of_getElem? hc)) (by simp)

/-- A node that covers `z` misses the key where `z` does, at the same child. -/
theorem Covers.misses (hz : Covers t key node z) (hne : z.liveKeys[z.stop key]? ≠ some key)
    (hc : z.liveChildren[z.stop key]? = some (some c)) : ∃ i, Misses node key i c := by
  obtain ⟨lf, ks, ds, A, B, DA, DB, hlz, hl, hstop, hpos, hchild⟩ := hz.stops
  have hkey := hz.found_iff hstop
  have hks := hpos (hlz.leaf_eq_false hc)
  rw [← hchild _ hlz.stop_le] at hc
  refine ⟨A.length + z.stop key, ⟨?_, hstop⟩, fun hlt he => hne (hkey.mp ⟨hlt, he⟩), ?_⟩
  · rw [hl.keyNum, List.length_append, List.length_append]
    omega
  · obtain ⟨rest, hrest⟩ := hl.children
    rw [hrest, List.getElem?_append_left (List.getElem?_eq_some_iff.mp hc).1, hc]

/-- The cells around the child where the search loop goes on. -/
theorem Misses.around (hm : Misses node key i c) (hn : Shaped t (Loose t) h node) :
    ∃ h' K₁ K₂ D₁ D₂, h = h' + 1 ∧ i = K₁.length ∧ D₁.length = K₁.length ∧
      Live t node false (K₁ ++ K₂) (D₁ ++ some c :: D₂) ∧
      Kids t (Loose t) (h' + 1) false (D₁ ++ some c :: D₂) ∧ (∀ a ∈ K₁, a < key) ∧
      ∀ b ∈ K₂.head?, key < b := by
  obtain ⟨h', K₁, K₂, D₁, D₂, rfl, rfl, hD, hl, hk⟩ := hm.focus hn
  have hlen : K₁.length = ((K₁ ++ K₂).takeWhile (· < key)).length := by
    rw [← hl.stop_eq]
    exact Except.ok.inj (hm.1.2.symm.trans hl.findKey_stop)
  have hcut : K₁ ++ K₂ = (K₁ ++ K₂).takeWhile (· < key) ++ (K₁ ++ K₂).dropWhile (· < key) :=
    List.takeWhile_append_dropWhile.symm
  obtain ⟨hK₁, hK₂⟩ := List.append_inj hcut hlen
  refine ⟨h', K₁, K₂, D₁, D₂, rfl, rfl, hD, hl, hk, fun a ha => ?_, fun b hb => ?_⟩
  · rw [hK₁] at ha
    simpa using List.mem_takeWhile_imp ha
  · have hhead := List.head?_dropWhile_not (· < key) (K₁ ++ K₂)
    rw [← hK₂, Option.mem_def.mp hb] at hhead
    -- the search loop has stopped at another key
    obtain ⟨K, rfl⟩ := List.head?_eq_some_iff.mp hb
    obtain ⟨rest, hrest⟩ := hl.keys
    have hlt : K₁.length < node.keyNum := by
      rw [hl.keyNum, List.length_append, List.length_cons]
      omega
    have hother := hm.2.1 hlt
    rw [hrest] at hother
    exact lt_of_le_of_ne (by simpa using hhead) fun he => hother (by simp [he])

/-- **The descent of a call on the search** goes on along it, and to the same child, if the search
is straight. -/
theorem Sits.leads (ht : Params t) (hs : Sits t h x) (hv : Visits t x.key z)
    (hz : Covers t x.key x.node z) (hm : Misses x.node x.key i c) :
    ∃ d z', descent t x.node c i = .ok d ∧ Visits t x.key z' ∧ Covers t x.key d.child z' ∧
      (Straight t x.key → z' = c) := by
  have hfound := hz.found_iff hm.1.2
  obtain ⟨lf, ks, ds, A, B, DA, DB, hlz, hl, hstop, hpos, hchild⟩ := hz.stops
  obtain rfl : i = A.length + z.stop x.key := Except.ok.inj (hm.1.2.symm.trans hstop)
  have hne : z.liveKeys[z.stop x.key]? ≠ some x.key := fun he =>
    hm.2.1 (hfound.mpr he).1 (hfound.mpr he).2
  obtain ⟨h', K₁, K₂, D₁, D₂, rfl, hi, hD, hl', hk, hK₁, hK₂⟩ := hm.around hs.1
  obtain ⟨-, hks, hds⟩ := hl.unique hl'
  obtain ⟨d, hd, hleads⟩ := descent_leads ht hl' hD hk (hs.2.1 (by simp)) hK₁ hK₂
  have hc : z.liveChildren[z.stop x.key]? = some (some c) := by
    rw [← hchild _ hlz.stop_le, hds, hi, ← hD]
    simp
  rw [hi]
  rcases hleads with hcov | ⟨D, s, k, rfl, rfl, hcov, hcle, hsle, hmem, hle⟩
  · exact ⟨d, c, hd, .child hv hne hc, hcov, fun _ => rfl⟩
  · -- the last child has been merged with the one before it
    have hlen := congrArg List.length hks
    have hstop' : z.stop x.key ≤ ks.length := hlz.stop_le
    have hzpos := hpos (hlz.leaf_eq_false hc)
    rw [List.append_nil, ← hi, List.length_append, List.length_append] at hlen
    have hlast : z.stop x.key = z.keyNum := by
      rw [hlz.keyNum]
      omega
    have hbefore : z.liveChildren[z.keyNum - 1]? = some (some s) := by
      rw [hlz.keyNum, ← hchild _ (Nat.sub_le _ _), hds]
      rw [List.length_append, List.length_singleton] at hD
      have hidx : A.length + (ks.length - 1) = D.length := by omega
      rw [hidx]
      simp
    refine ⟨d, s, hd, .before hv hlast (hlast ▸ hc) hcle hbefore hsle hmem hle, hcov, fun hst => ?_⟩
    exact absurd (hst z s hv hlast hbefore k hmem) (not_lt.mpr hle)

/-- The child behind the key that a call finds. -/
theorem Covers.right_eq (hz : Covers t key node z) (hf : Finds node key i)
    (hright : BTree.childAt node (i + 1) = .ok r) :
    z.liveKeys[z.stop key]? = some key ∧ z.liveChildren[z.stop key + 1]? = some (some r) := by
  have hfound := (hz.found_iff hf.1.2).mp ⟨hf.2.1, hf.2.2.1⟩
  obtain ⟨lf, ks, ds, A, B, DA, DB, hlz, hl, hstop, -, hchild⟩ := hz.stops
  obtain rfl : i = A.length + z.stop key := Except.ok.inj (hf.1.2.symm.trans hstop)
  have hlt := (List.getElem?_eq_some_iff.mp hfound).1
  rw [hlz.liveKeys_eq] at hlt
  refine ⟨hfound, ?_⟩
  obtain ⟨rest, hrest⟩ := hl.children
  have hcell := getElem?_of_childAt hright
  have hcount := hl.count
  simp only [List.length_append] at hcount
  rwa [hrest, List.getElem?_append_left (by simp only [List.length_append]; omega), Nat.add_assoc,
    hchild _ hlt] at hcell

/-- A child as a descent enters it is not starved. -/
theorem Filled.not_starved (hc : Filled t h c) {isRoot : Bool} : ¬Starved t ⟨c, key, isRoot⟩ := by
  rintro ⟨hleaf, hone, -⟩
  obtain ⟨lf, ks, ds, hl, hk⟩ := shaped_iff.mp hc.1
  have hlf : lf = false := hl.isLeaf.symm.trans hleaf
  have htwo := hc.2.2 (by simpa [hlf] using hk.leaf_eq)
  exact absurd hone (show c.keyNum ≠ 1 by omega)

/-- **A call that the search comes to is not starved**, nor is a call it makes, if no hollow node is
on the way down from behind the key. -/
theorem Covers.unstarved (ht : Params t) (hone : t.kMinNum = 1)
    (hbelow : ∀ node r d, Visits t key node → node.liveKeys[node.stop key]? = some key →
      node.liveChildren[node.stop key + 1]? = some (some r) → r.Second d → ¬Hollow t d)
    {isRoot : Bool} (hs : Sits t h ⟨node, key, isRoot⟩) (hv : Visits t key z)
    (hz : Covers t key node z) (hst : ¬Starved t ⟨node, key, isRoot⟩)
    (hc : Calls t ⟨node, key, isRoot⟩ x') : ¬Starved t x' := by
  induction h generalizing node z isRoot with
  | zero => exact hs.leaf ht hc
  | succ h ih =>
    -- by the height: the call itself, or the step it takes first
    obtain rfl | ⟨y, hstep, hrest⟩ := hc.cases_head
    · exact hst
    obtain ⟨h', -, hh, hy, -⟩ := hstep.follows ht hs
    obtain rfl : h' = h := by omega
    cases hstep with
    | right hf hright hge hk =>
      -- `key` is found, and from here the deletion goes down through second children
      obtain ⟨hfound, hcell⟩ := hz.right_eq hf hright
      intro hst'
      obtain ⟨d, hd, hhollow⟩ := hy.second_of_starved ht hone (hy.head_eq ht hk) hrest hst'
      exact hbelow z _ d hv hfound hcell hd hhollow
    | left hf hright hlt =>
      obtain rfl := hf.height_eq_zero hone hs.1 hright hlt
      exact hy.leaf ht hrest
    | merged hf hright hlt =>
      obtain rfl := hf.height_eq_zero hone hs.1 hright hlt
      exact hy.leaf ht hrest
    -- `key` is not here: the child covers a node that the search comes to
    | into hm hd =>
      obtain ⟨d, z', hd', hv', hz', -⟩ := hs.leads ht hv hz hm
      obtain rfl := Except.ok.inj (hd.symm.trans hd')
      obtain ⟨h'', e, -, he, hgoes, -⟩ := hs.descends ht hm
      obtain rfl := Except.ok.inj (hd.symm.trans he)
      exact ih hy hv' hz' hgoes.1.not_starved hrest
    | fromRoot hm hd =>
      obtain ⟨d, z', hd', hv', hz', -⟩ := hs.leads ht hv hz hm
      obtain rfl := Except.ok.inj (hd.symm.trans hd')
      obtain ⟨h'', e, -, he, hgoes, -⟩ := hs.descends ht hm
      obtain rfl := Except.ok.inj (hd.symm.trans he)
      exact ih hy hv' hz' hgoes.1.not_starved hrest

/-- A node that covers `z` finds the key where `z` does, in front of the same child. -/
theorem Covers.finds (hz : Covers t key node z) (hfound : z.liveKeys[z.stop key]? = some key)
    (hcell : z.liveChildren[z.stop key + 1]? = some (some r)) :
    ∃ i, Finds node key i ∧ BTree.childAt node (i + 1) = .ok r := by
  obtain ⟨lf, ks, ds, A, B, DA, DB, hlz, hl, hstop, hpos, hchild⟩ := hz.stops
  obtain ⟨hlt, hkey⟩ := (hz.found_iff hstop).mpr hfound
  have hleaf := hlz.leaf_eq_false hcell
  have hstop' := (List.getElem?_eq_some_iff.mp hfound).1
  rw [hlz.liveKeys_eq] at hstop'
  have hcell' : (DA ++ ds ++ DB)[A.length + z.stop key + 1]? = some (some r) :=
    (hchild _ hstop').trans hcell
  obtain ⟨rest, hrest⟩ := hl.children
  refine ⟨A.length + z.stop key, ⟨⟨Nat.ne_zero_of_lt hlt, hstop⟩, hlt, hkey,
    hl.isLeaf.trans hleaf⟩, childAt_of_getElem? ?_⟩
  rw [hrest, List.getElem?_append_left (List.getElem?_eq_some_iff.mp hcell').1, hcell']

/-- **A straight search is gone along by the deletion**: it comes to a node with the cells of every
node of the search. -/
theorem Visits.exists_call (ht : Params t) (hn : Shaped t (Loose t) h t.root)
    (hpos : h ≠ 0 → 0 < t.root.keyNum) (hst : Straight t key) (hv : Visits t key z) :
    ∃ h' x, Calls t ⟨t.root, key, true⟩ x ∧ Sits t h' x ∧ x.key = key ∧ Covers t key x.node z := by
  induction hv with
  | root =>
    obtain ⟨lf, ks, ds, hl, hk⟩ := shaped_iff.mp hn
    refine ⟨h, _, .refl, ⟨hn, hpos, fun h₀ => absurd h₀ (by simp)⟩, rfl, hl.covers fun hlf => ?_⟩
    rw [← hl.keyNum]
    exact hpos (by simpa [hlf] using hk.leaf_eq)
  | @child node c hv hne hc ih =>
    obtain ⟨h', x, hcalls, hs, rfl, hz⟩ := ih
    obtain ⟨i, hm⟩ := hz.misses hne hc
    obtain ⟨d, z', hd, -, hz', hsame⟩ := hs.leads ht hv hz hm
    obtain rfl := hsame hst
    cases d with
    | into node' j c' =>
      obtain ⟨h'', -, -, hs', -⟩ := (CallStep.into hm hd).follows ht hs
      exact ⟨h'', _, hcalls.tail (.into hm hd), hs', rfl, hz'⟩
    | fromRoot c' =>
      obtain ⟨h'', -, -, hs', -⟩ := (CallStep.fromRoot hm hd).follows ht hs
      exact ⟨h'', _, hcalls.tail (.fromRoot hm hd), hs', rfl, hz'⟩
  | before hv hstop hc hcle hs hsle hmem hle =>
    exact absurd (hst _ _ hv hstop hs _ hmem) (not_lt.mpr hle)

/-! ### A whole deletion -/

/-- **A deletion that spares the rest of the tree** comes to no starved node. -/
theorem Spares.unstarved (ht : Params t) (hn : Shaped t (Loose t) h t.root)
    (hpos : h ≠ 0 → 0 < t.root.keyNum) (hsp : Spares t key) : Unstarved t key := by
  intro x hc hst
  have hs : Sits t h ⟨t.root, key, true⟩ := ⟨hn, hpos, fun h₀ => absurd h₀ (by simp)⟩
  obtain ⟨lf, ks, ds, hl, hk⟩ := shaped_iff.mp hn
  have hroot : ¬Starved t ⟨t.root, key, true⟩ := fun hst =>
    hsp.root ((starved_iff hl).mp hst).2 ((starved_iff hl).mp hst).1
  by_cases hone : t.kMinNum = 1
  · refine Covers.unstarved ht hone (hsp.below hone) hs .root (hl.covers fun hlf => ?_) hroot hc hst
    rw [← hl.keyNum]
    exact hpos (by simpa [hlf] using hk.leaf_eq)
  · -- above order 4 only the root of the tree is starved, and a new root has two keys
    have hmin := ht.min_pos
    obtain ⟨h', hs'⟩ := hc.sits ht hs
    have hisRoot := hst.isRoot hs' (by omega)
    obtain rfl | ⟨y, hcy, hstep⟩ := hc.cases_tail
    · exact hroot hst
    obtain ⟨h'', hsy⟩ := Calls.sits ht hs hcy
    cases hstep with
    | fromRoot hm hd =>
      obtain ⟨h₃, e, -, he, hgoes, -⟩ := hsy.descends ht hm
      obtain rfl := Except.ok.inj (hd.symm.trans he)
      exact hgoes.1.not_starved hst
    | right => exact absurd hisRoot (by simp)
    | left => exact absurd hisRoot (by simp)
    | merged => exact absurd hisRoot (by simp)
    | into => exact absurd hisRoot (by simp)

/-- **Where the search is straight**, no other deletion does. -/
theorem Straight.spares (ht : Params t) (hn : Shaped t (Loose t) h t.root)
    (hpos : h ≠ 0 → 0 < t.root.keyNum) (hstraight : Straight t key) (hun : Unstarved t key) :
    Spares t key := by
  obtain ⟨lf, ks, ds, hl, -⟩ := shaped_iff.mp hn
  refine ⟨fun hkey hhollow => hun _ .refl ((starved_iff hl).mpr ⟨hhollow, hkey⟩), ?_⟩
  intro hone node r d hv hfound hcell hd hhollow
  obtain ⟨h', x, hcalls, hs, rfl, hz⟩ := hv.exists_call ht hn hpos hstraight
  obtain ⟨i, hf, hright⟩ := hz.finds hfound hcell
  obtain ⟨h'', K₁, K₂, D₁, l, r', D₂, rfl, rfl, hD, hlx, hk⟩ := hf.focus hs.1
  have hlx' : Live t x.node false (K₁ ++ x.key :: K₂) ((D₁ ++ [some l]) ++ some r' :: D₂) := by
    simpa using hlx
  obtain rfl : r' = r := Except.ok.inj ((hlx'.childAt (by simp [hD])).symm.trans hright)
  rw [kids_append, kids_cons, kids_some, kids_cons, kids_some] at hk
  obtain ⟨lf', kr, dr, hlr, -⟩ := shaped_iff.mp hk.2.2.1.2
  have hrpos := hd.keyNum_pos hhollow hlr
  obtain ⟨k, kr, rfl⟩ := List.exists_cons_of_length_pos (hlr.keyNum ▸ hrpos)
  have hstep := CallStep.right (k := k) hf hright (show t.kMinNum ≤ r'.keyNum by omega)
    (get_eq_ok hlr.get_head)
  obtain ⟨h₃, -, -, hs', -⟩ := hstep.follows ht hs
  obtain ⟨x', hc', hst⟩ := hs'.starved_of_second ht hone (by rw [hlr.liveKeys_eq]; rfl) hd hhollow
  exact hun x' ((hcalls.tail hstep).trans hc') hst

end

/-! ### Runs -/

/-- A call of the interface. -/
inductive Op
  /-- `btree_insert`. -/
  | insert (key : ℤ)
  /-- `btree_delete`. -/
  | delete (key : ℤ)

/-- What a call does to a tree. -/
def Op.run (n : ℕ) (t : Btree) : Op → Except Fault Btree
  | insert key => btreeInsert n t key
  | delete key => btreeDelete n t key

/-- **One call**, on as much fuel as it needs, and its result or its fault. -/
inductive OpStep : Except Fault Btree → Op → Except Fault Btree → Prop
  /-- A call. -/
  | call {t : Btree} {op : Op} {r : Except Fault Btree} : (∀ᶠ n in atTop, op.run n t = r) →
      OpStep (.ok t) op r

/-- A deletion that spares the rest of the tree, as a condition on the state before it. -/
def Spared (r : Except Fault Btree) (op : Op) : Prop :=
  ∀ t key, r = .ok t → op = .delete key → Spares t key

/-- A deletion that keeps the rest of the tree. -/
def RestKept (r : Except Fault Btree) (op : Op) : Prop :=
  ∀ t key, r = .ok t → op = .delete key → KeepsRest t key

/-- The invariant of a run: what is no fault is a tree with the shape. -/
def Tidy (r : Except Fault Btree) : Prop :=
  ∀ t, r = .ok t → Params t ∧
    ∃ h, Shaped t (Loose t) h t.root ∧ (h ≠ 0 → 0 < t.root.keyNum)

section

variable {t : Btree} {r r' : Except Fault Btree} {op : Op} {key : ℤ}

theorem tidy_ok {root : BtreeNode} {h : ℕ} (ht : Params t) (hn : Shaped t (Loose t) h root)
    (hpos : h ≠ 0 → 0 < root.keyNum) : Tidy (.ok { t with root := root }) := by
  intro t' he
  obtain rfl := Except.ok.inj he
  exact ⟨ht.withRoot root, h, hn.withRoot root, hpos⟩

/-- Every call on a tree with the shape ends, in such a tree or a fault. -/
theorem Tidy.exists_result (hr : Tidy (.ok t)) (op : Op) :
    ∃ r', Tidy r' ∧ ∀ᶠ n in atTop, op.run n t = r' := by
  obtain ⟨ht, h, hn, hpos⟩ := hr t rfl
  cases op with
  | insert key =>
    obtain ⟨res, hres, hcase⟩ := btreeInsert_fits ht (upward_loose ht) hn hpos key
    refine ⟨res, ?_, (eventually_gt_atTop h).mono hres⟩
    rcases hcase with ⟨-, root, h', rfl, hroot, hpos'⟩ | ⟨-, rfl⟩
    · exact tidy_ok ht hroot hpos'
    · exact fun t' he => absurd he (by simp)
  | delete key =>
    have hs : Sits t h ⟨t.root, key, true⟩ := ⟨hn, hpos, fun h₀ => absurd h₀ (by simp)⟩
    by_cases hun : Unstarved t key
    · obtain ⟨out, hg, hrun⟩ := hs.good ht hun
      cases out with
      | kept root =>
        refine ⟨_, tidy_ok ht hg.1 hg.2.1, (eventually_gt_atTop h).mono fun n hlt => ?_⟩
        rw [Op.run, btreeDelete, hrun n hlt]
        rfl
      | newRoot root =>
        obtain ⟨-, h', hroot, hpos'⟩ := hg
        refine ⟨_, tidy_ok ht hroot hpos', (eventually_gt_atTop h).mono fun n hlt => ?_⟩
        rw [Op.run, btreeDelete, hrun n hlt]
        rfl
    · obtain ⟨c, hc, hst⟩ : ∃ c, Calls t ⟨t.root, key, true⟩ c ∧ Starved t c := by
        simpa [Unstarved] using hun
      refine ⟨.error .useAfterFree, fun t' he => absurd he (by simp),
        (hs.useAfterFree ht hc hst).mono fun n herr => ?_⟩
      rw [Op.run, btreeDelete, herr]
      rfl

theorem Tidy.step (hr : Tidy r) (hstep : OpStep r op r') : Tidy r' := by
  cases hstep with
  | call hret =>
    obtain ⟨res, htidy, hres⟩ := hr.exists_result op
    obtain ⟨n, hn, hn'⟩ := (hret.and hres).exists
    rw [← hn.symm.trans hn'] at htidy
    exact htidy

theorem Tidy.restKept (hr : Tidy r) (h : Spared r op) : RestKept r op := by
  intro t key he hop
  obtain ⟨ht, height, hn, hpos⟩ := hr t he
  exact (unstarved_iff_keepsRest ht hn hpos).mp ((h t key he hop).unstarved ht hn hpos)

theorem tidy_btreeInitTree {order : ℕ} (heven : order % 2 = 0) (hle : 4 ≤ order) :
    Tidy (.ok (btreeInitTree order)) := by
  obtain ⟨ht, hn⟩ := @shaped_btreeInitTree (Loose (btreeInitTree order)) order heven hle
  intro t he
  obtain rfl := Except.ok.inj he
  exact ⟨ht, 0, hn, fun h₀ => absurd rfl h₀⟩

/-- **Deletions keep the rest of the tree** over all runs whose deletions spare it, the runs go on
as long as there is no fault, and in the trees they reach the condition on the next deletion is
exact where the search for the key is straight. -/
theorem run_restKept {order : ℕ} {ops : List Op} (heven : order % 2 = 0) (hle : 4 ≤ order) :
    (Runs.Run (Runs.guard Spared OpStep) (.ok (btreeInitTree order)) ops r →
      Runs.Run (Runs.guard RestKept OpStep) (.ok (btreeInitTree order)) ops r) ∧
      ∀ t, Runs.Run OpStep (.ok (btreeInitTree order)) ops (.ok t) →
        (∀ key, Straight t key → (Spares t key ↔ KeepsRest t key)) ∧
          ∀ op, ∃ r', OpStep (.ok t) op r' := by
  have h₀ := tidy_btreeInitTree heven hle
  refine ⟨fun hrun => hrun.guard_mono h₀ (fun _ _ _ hr hstep => hr.step hstep)
    fun _ _ hr h => hr.restKept h, fun t hrun => ?_⟩
  have hr : Tidy (.ok t) := hrun.invariant h₀ fun _ _ _ hr hstep => hr.step hstep
  obtain ⟨ht, h, hn, hpos⟩ := hr t rfl
  refine ⟨fun key hst => ⟨fun hsp => ?_, fun hkeeps => ?_⟩, fun op => ?_⟩
  · exact (unstarved_iff_keepsRest ht hn hpos).mp (hsp.unstarved ht hn hpos)
  · exact hst.spares ht hn hpos ((unstarved_iff_keepsRest ht hn hpos).mpr hkeeps)
  · obtain ⟨r', -, hres⟩ := hr.exists_result op
    exact ⟨r', .call hres⟩

end

/-! ### A tree whose deletions merge nodes, and one with a hollow node -/

/-- A tree of a root over leaves, whose key is another. -/
theorem Spares.of_leaves {t : Btree} {key : ℤ} (hkey : t.root.liveKeys ≠ [key])
    (hleaves : ∀ d ∈ t.root.liveChildren, ∀ c ∈ d, ∀ e ∈ c.liveChildren, e.isNone) :
    Spares t key := by
  have hleaf : ∀ c, some c ∈ t.root.liveChildren → ∀ d, ¬some d ∈ c.liveChildren :=
    fun c hc d hd => absurd (hleaves _ hc c rfl _ hd) (by simp)
  have hvisits : ∀ node, Visits t key node → node = t.root ∨ some node ∈ t.root.liveChildren := by
    intro node hv
    induction hv with
    | root => exact Or.inl rfl
    | child _ _ hc ih =>
      rcases ih with rfl | hmem
      · exact Or.inr (List.mem_of_getElem? hc)
      · exact absurd (List.mem_of_getElem? hc) (hleaf _ hmem _)
    | before _ _ _ _ hs _ _ _ ih =>
      rcases ih with rfl | hmem
      · exact Or.inr (List.mem_of_getElem? hs)
      · exact absurd (List.mem_of_getElem? hs) (hleaf _ hmem _)
  refine ⟨fun h => absurd h hkey, fun _ node r d hv _ hr hd hhollow => ?_⟩
  have hmem := List.mem_of_getElem? hr
  rcases hvisits node hv with rfl | hnode
  · cases hd with
    | refl =>
      obtain ⟨l, r', hlr, -⟩ := hhollow
      exact hleaf r hmem l (by rw [hlr]; exact List.mem_cons_self)
    | child hc => exact absurd (List.mem_of_getElem? hc) (hleaf r hmem _)
  · exact absurd hmem (hleaf node hnode r)

/-- A tree of order 4 of a root over leaves, after deletions. -/
def leavesTree (keyNum n : ℕ) (rest : List (Option BtreeNode)) : Btree :=
  { btreeInitTree 4 with
    root := ⟨[2, 4, 0], some ⟨[1, 2, 3], [none, none, none, none], 1, true⟩ ::
      some ⟨[3, 4, 5], [none, none, none, none], n, true⟩ :: rest, keyNum, false⟩ }

/-- A third leaf of such a tree. -/
def thirdLeaf (n : ℕ) : List (Option BtreeNode) :=
  [some ⟨[5, 6, 0], [none, none, none, none], n, true⟩, none]

theorem opStep_run {t : Btree} (t' : Btree) {op : Op} (h : ∀ n, op.run (n + 4) t = .ok t') :
    OpStep (.ok t) op (.ok t') := by
  refine .call (eventually_atTop.mpr ⟨4, fun n hn => ?_⟩)
  obtain ⟨m, rfl⟩ : ∃ m, n = m + 4 := ⟨n - 4, by omega⟩
  exact h m

theorem spared_insert {r : Except Fault Btree} (key : ℤ) : Spared r (.insert key) :=
  fun _ _ _ h => nomatch h

theorem spared_delete {t : Btree} (key : ℤ) (h : Spares t key) :
    Spared (.ok t) (.delete key) := by
  intro t' key' he hop
  obtain rfl := Except.ok.inj he
  obtain rfl := Op.delete.inj hop
  exact h

/-- **Deletions that merge**: the deletion of 5 merges the last two leaves, and that of 3 the last
two that are left, by which the root is emptied and the merged leaf is the new root. -/
theorem run_restKept_sample :
    Runs.Run (Runs.guard RestKept OpStep) (.ok (btreeInitTree 4))
      [.insert 1, .insert 2, .insert 3, .insert 4, .insert 5, .insert 6, .delete 6, .delete 5,
        .delete 4, .delete 3]
      (.ok { btreeInitTree 4 with root := ⟨[1, 2, 3], [none, none, none, none], 2, true⟩ }) := by
  have hgrow : Runs.Run (Runs.guard Spared OpStep) (.ok (btreeInitTree 4))
      [.insert 1, .insert 2, .insert 3, .insert 4, .insert 5, .insert 6]
      (.ok (leavesTree 2 1 (thirdLeaf 2))) := by
    have h₀ : Runs.Run (Runs.guard Spared OpStep) (.ok (btreeInitTree 4)) []
        (.ok (btreeInitTree 4)) := .nil
    have h₁ := h₀.snoc ⟨spared_insert 1, opStep_run _ fun _ => rfl⟩
    have h₂ := h₁.snoc ⟨spared_insert 2, opStep_run _ fun _ => rfl⟩
    have h₃ := h₂.snoc ⟨spared_insert 3, opStep_run _ fun _ => rfl⟩
    have h₄ := h₃.snoc ⟨spared_insert 4, opStep_run _ fun _ => rfl⟩
    have h₅ := h₄.snoc ⟨spared_insert 5, opStep_run _ fun _ => rfl⟩
    exact h₅.snoc ⟨spared_insert 6, opStep_run _ fun _ => rfl⟩
  have h₆ := hgrow.snoc ⟨spared_delete 6 (.of_leaves (by decide) (by decide)),
    opStep_run (leavesTree 2 1 (thirdLeaf 1)) fun _ => rfl⟩
  have h₇ := h₆.snoc ⟨spared_delete 5 (.of_leaves (by decide) (by decide)),
    opStep_run (leavesTree 1 2 [none, none]) fun _ => rfl⟩
  have h₈ := h₇.snoc ⟨spared_delete 4 (.of_leaves (by decide) (by decide)),
    opStep_run (leavesTree 1 1 [none, none]) fun _ => rfl⟩
  have h₉ := h₈.snoc ⟨spared_delete 3 (.of_leaves (by decide) (by decide)),
    opStep_run _ fun _ => rfl⟩
  exact (run_restKept rfl le_rfl).1 h₉

/-- A root over two internal nodes, of which the right one has one key and two empty leaves. -/
def starvedTree : Btree :=
  let leaf (keys : List ℤ) (keyNum : ℕ) : Option BtreeNode :=
    some ⟨keys, [none, none, none, none], keyNum, true⟩
  { btreeInitTree 4 with
    root := ⟨[9, 0, 0],
      [some ⟨[2, 4, 6], [leaf [1, 2, 3] 1, leaf [3, 4, 5] 1, leaf [5, 6, 7] 1, leaf [7, 8, 0] 2], 1,
          false⟩,
        some ⟨[5, 0, 0], [leaf [5, 6, 7] 0, leaf [9, 9, 9] 0, none, none], 1, false⟩,
        none, none], 1, false⟩ }

/-- **A node other than the root is emptied**: deletions come to a tree with a starved node, and
the next one merges its children and makes them the root of the whole tree. -/
theorem not_restKept_sample :
    (∀ n ≥ 6, ([.insert 1, .insert 2, .insert 3, .insert 4, .insert 5, .insert 6, .insert 7,
        .insert 8, .insert 9, .delete 4, .delete 6, .delete 7, .delete 8] : List Op).foldlM
          (fun t op => op.run n t) (btreeInitTree 4) = .ok starvedTree) ∧
      (∀ n ≥ 6, btreeDelete n starvedTree 9 = .error .useAfterFree) ∧
      ∃ c child, Calls starvedTree ⟨starvedTree.root, 9, true⟩ c ∧ Empties starvedTree c child ∧
        c.isRoot = false := by
  refine ⟨fun n hn => ?_, fun n hn => ?_, ?_⟩
  · obtain ⟨m, rfl⟩ : ∃ m, n = m + 6 := ⟨n - 6, by omega⟩
    rfl
  · obtain ⟨m, rfl⟩ : ∃ m, n = m + 6 := ⟨n - 6, by omega⟩
    rfl
  · have hroot : Finds starvedTree.root 9 0 := ⟨⟨by decide, rfl⟩, by decide, rfl, rfl⟩
    have hstep := CallStep.right (t := starvedTree) (c := ⟨starvedTree.root, 9, true⟩) (k := 5)
      hroot rfl (by decide) rfl
    refine ⟨_, _, .single hstep, .found ⟨⟨?_, rfl⟩, ?_, rfl, rfl⟩ rfl ?_ rfl ?_ rfl, rfl⟩ <;> decide

end BTree

end BackendStudy
