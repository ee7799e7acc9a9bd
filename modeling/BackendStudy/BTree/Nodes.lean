import BackendStudy.BTree.Model

/-!
# What the node operations do to the live cells

The parts of the arrays of a node that are in use are lists: its keys, and one child cell
more (`BackendStudy.BTree.Live`). Each operation of the source on one node and its
children is described by what it does to these lists, wherever they stand in the arrays:
a split moves the middle key up between its two halves
(`BackendStudy.BTree.splitChild_spec`), a merge moves a key down between two children
(`BackendStudy.BTree.mergeChildren_spec`), and a child can take a key through its parent
from either side (`BackendStudy.BTree.borrowRight_spec`,
`BackendStudy.BTree.borrowLeft_spec`). That every access these operations make is in range
is part of what is proved: they return.
-/

namespace BackendStudy

namespace BTree

open Slots

/-- **The live cells of a node**: its keys, and one cell more for its children. All cells
of a leaf are null, in use or not. -/
structure Live (t : Btree) (node : BtreeNode) (leaf : Bool) (ks : List ℤ)
    (ds : List (Option BtreeNode)) : Prop where
  isLeaf : node.isLeaf = leaf
  keyNum : node.keyNum = ks.length
  keys : ∃ rest, node.keys = ks ++ rest
  capacity : node.keys.length = t.kMaxNum
  children : ∃ rest, node.children = ds ++ rest
  order : node.children.length = t.order
  count : ds.length = ks.length + 1
  null : leaf = true → ∀ x ∈ node.children, x = none

/-- **The numbers of the tree header** for an even order: the smallest and the largest
number of keys, the middle, and the number of child cells. -/
structure Params (t : Btree) : Prop where
  min_pos : 1 ≤ t.kMinNum
  mid : t.kMidIdx = t.kMinNum
  max : t.kMaxNum = 2 * t.kMinNum + 1
  order : t.order = t.kMaxNum + 1

section

variable {t : Btree} {node p c l r : BtreeNode} {lf lc : Bool} {ks Ka Kb K₁ K₂ : List ℤ}
  {ds Da Db D₁ D₂ : List (Option BtreeNode)} {k m s : ℤ} {n : ℕ}

theorem Params.lt_order (ht : Params t) : t.kMaxNum < t.order :=
  ht.order ▸ Nat.lt_succ_self _

/-- A node with room has a free key cell. -/
theorem Live.free_key (h : Live t node lf ks ds) (hroom : ks.length < t.kMaxNum) :
    ∃ x rest, node.keys = ks ++ x :: rest := by
  obtain ⟨rest, hrest⟩ := h.keys
  have hlen := h.capacity
  rw [hrest, List.length_append] at hlen
  obtain ⟨x, rest, rfl⟩ : ∃ x rest', rest = x :: rest' :=
    List.exists_cons_of_length_pos (by omega)
  exact ⟨x, rest, hrest⟩

/-- A node with room has a free child cell. -/
theorem Live.free_child (hord : t.kMaxNum < t.order) (h : Live t node lf ks ds)
    (hroom : ks.length < t.kMaxNum) : ∃ x rest, node.children = ds ++ x :: rest := by
  obtain ⟨rest, hrest⟩ := h.children
  have hlen := h.order
  rw [hrest, List.length_append, h.count] at hlen
  obtain ⟨x, rest, rfl⟩ : ∃ x rest', rest = x :: rest' :=
    List.exists_cons_of_length_pos (by omega)
  exact ⟨x, rest, hrest⟩

theorem Live.keyNum_le (h : Live t node lf ks ds) : ks.length ≤ t.kMaxNum := by
  obtain ⟨rest, hrest⟩ := h.keys
  have hlen := h.capacity
  rw [hrest, List.length_append] at hlen
  omega

theorem Live.keyNum_add {lf' : Bool} {ks' : List ℤ} {ds' : List (Option BtreeNode)}
    (h : Live t node lf ks ds) (h' : Live t p lf' ks' ds') (hlen : ks'.length = ks.length + n) :
    p.keyNum = node.keyNum + n := by
  rw [h'.keyNum, h.keyNum, hlen]

/-- The live cells of a node are determined by the node. -/
theorem Live.unique {lf' : Bool} {ks' : List ℤ} {ds' : List (Option BtreeNode)}
    (h : Live t node lf ks ds) (h' : Live t node lf' ks' ds') : lf = lf' ∧ ks = ks' ∧ ds = ds' := by
  obtain ⟨rest, hrest⟩ := h.keys
  obtain ⟨rest', hrest'⟩ := h'.keys
  obtain ⟨crest, hcrest⟩ := h.children
  obtain ⟨crest', hcrest'⟩ := h'.children
  have hlen : ks.length = ks'.length := h.keyNum.symm.trans h'.keyNum
  have hks := List.append_inj (hrest.symm.trans hrest') hlen
  have hds := List.append_inj (hcrest.symm.trans hcrest') (by rw [h.count, h'.count, hlen])
  exact ⟨h.isLeaf.symm.trans h'.isLeaf, hks.1, hds.1⟩

theorem Live.ds_null (h : Live t node lf ks ds) (hlf : lf = true) : ∀ x ∈ ds, x = none := by
  obtain ⟨rest, hrest⟩ := h.children
  exact fun x hx => h.null hlf x (by rw [hrest]; exact List.mem_append_left _ hx)

theorem Live.exists_child (hl : Live t node lf (K₁ ++ K₂) ds) :
    ∃ D₁ d D₂, ds = D₁ ++ d :: D₂ ∧ D₁.length = K₁.length := by
  have hcount := hl.count
  rw [List.length_append] at hcount
  exact exists_cut_at (by omega)

theorem Live.childAt (h : Live t node lf ks (D₁ ++ some c :: D₂)) (hn : n = D₁.length) :
    childAt node n = .ok c := by
  obtain ⟨rest, hrest⟩ := h.children
  rw [BTree.childAt, hrest, List.append_assoc, List.cons_append, get_at hn]
  rfl

theorem Live.get_child {x : Option BtreeNode} (h : Live t node lf ks (D₁ ++ x :: D₂))
    (hn : n = D₁.length) : get Fault.outOfRange node.children n = .ok x := by
  obtain ⟨rest, hrest⟩ := h.children
  rw [hrest, List.append_assoc, List.cons_append, get_at hn]

theorem Live.get_key (h : Live t node lf (K₁ ++ k :: K₂) ds) (hn : n = K₁.length) :
    get Fault.outOfRange node.keys n = .ok k := by
  obtain ⟨rest, hrest⟩ := h.keys
  rw [hrest, List.append_assoc, List.cons_append, get_at hn]

theorem Live.get_head (h : Live t node lf (k :: K₂) ds) :
    get Fault.outOfRange node.keys 0 = .ok k := by
  obtain ⟨rest, hrest⟩ := h.keys
  rw [hrest]
  rfl

theorem Live.get_head_child {x : Option BtreeNode} (h : Live t node lf ks (x :: D₂)) :
    get Fault.outOfRange node.children 0 = .ok x := by
  obtain ⟨rest, hrest⟩ := h.children
  rw [hrest]
  rfl

theorem Live.put_key (h : Live t node lf (K₁ ++ k :: K₂) ds) (hn : n = K₁.length) (k' : ℤ) :
    ∃ keys, put Fault.outOfRange node.keys n k' = .ok keys ∧
      Live t { node with keys := keys } lf (K₁ ++ k' :: K₂) ds := by
  obtain ⟨rest, hrest⟩ := h.keys
  have hlen := h.capacity
  have hput := put_at (e := Fault.outOfRange) (A := K₁) (y := k) (x := k') (C := K₂ ++ rest) hn
  rw [hrest] at hlen ⊢
  rw [List.append_assoc, List.cons_append, hput]
  exact ⟨_, rfl, h.isLeaf, by simpa using h.keyNum, ⟨rest, by simp⟩, by simpa using hlen,
    h.children, h.order, by simpa using h.count, h.null⟩

theorem Live.setChild {x : Option BtreeNode} (h : Live t node false ks (D₁ ++ x :: D₂))
    (hn : n = D₁.length) (c : BtreeNode) :
    Live t (node.setChild n c) false ks (D₁ ++ some c :: D₂) := by
  obtain ⟨rest, hrest⟩ := h.children
  have hset : node.children.set n (some c) = (D₁ ++ some c :: D₂) ++ rest := by
    rw [hrest, hn]
    simp
  refine ⟨h.isLeaf, h.keyNum, h.keys, h.capacity, ⟨rest, hset⟩, ?_, by simpa using h.count,
    by simp⟩
  rw [BtreeNode.setChild, List.length_set]
  exact h.order

/-! ### Splitting a child -/

/-- A full node is cut at a key. -/
theorem Live.cut_at {i : ℕ} (hl : Live t node lf ks ds) (hfull : node.keyNum = t.kMaxNum)
    (hi : i < t.kMaxNum) :
    ∃ Ka m Kb Da Db, ks = Ka ++ m :: Kb ∧ ds = Da ++ Db ∧ Ka.length = i ∧
      Kb.length = t.kMaxNum - (i + 1) ∧ Da.length = i + 1 := by
  have hnum := hl.keyNum
  have hcount := hl.count
  obtain ⟨Ka, m, Kb, rfl, hKa⟩ := exists_cut_at (show i < ks.length by omega)
  rw [List.length_append, List.length_cons] at hnum hcount
  exact ⟨Ka, m, Kb, ds.take (i + 1), ds.drop (i + 1), rfl, by simp, hKa, by omega,
    by simp; omega⟩

/-- A full node is cut at its middle key. -/
theorem Live.cut (ht : Params t) (hl : Live t node lf ks ds) (hfull : node.keyNum = t.kMaxNum) :
    ∃ Ka m Kb Da Db, ks = Ka ++ m :: Kb ∧ ds = Da ++ Db ∧ Ka.length = t.kMinNum ∧
      Kb.length = t.kMinNum ∧ Da.length = t.kMinNum + 1 := by
  have hmax := ht.max
  obtain ⟨Ka, m, Kb, Da, Db, hks, hds, hKa, hKb, hDa⟩ := hl.cut_at hfull (i := t.kMinNum) (by omega)
  exact ⟨Ka, m, Kb, Da, Db, hks, hds, hKa, by omega, hDa⟩

/-- The parent of a split makes room for a key and a child behind the cell `n`. -/
theorem Live.makeRoom (hord : t.kMaxNum < t.order)
    (hp : Live t p false (K₁ ++ K₂) (D₁ ++ some c :: D₂)) (hn : n = K₁.length)
    (hD : D₁.length = K₁.length) (hroom : (K₁ ++ K₂).length < t.kMaxNum) (m : ℤ)
    (c₁ c₂ : BtreeNode) :
    ∃ keys children keys' children',
      forDown (both (up Fault.outOfRange 0) (up Fault.outOfRange 1)) n (p.keyNum - n)
        (p.keys, p.children) = .ok (keys, children) ∧
      put Fault.outOfRange keys (min n p.keyNum) m = .ok keys' ∧
      put Fault.outOfRange children (min n p.keyNum + 1) (some c₂) = .ok children' ∧
      Live t { p with
        keys := keys', children := children'.set n (some c₁), keyNum := p.keyNum + 1 } false
        (K₁ ++ m :: K₂) (D₁ ++ some c₁ :: some c₂ :: D₂) := by
  have hpcount := hp.count
  have hpnum := hp.keyNum
  simp only [List.length_append, List.length_cons] at hroom hpcount hpnum
  have hcount : p.keyNum - n = K₂.length := by omega
  have hD₂ : D₂.length = K₂.length := by omega
  -- beyond the cells in use there is a free one for the loop to move up to
  obtain ⟨x, R, hkeys⟩ := hp.free_key (by simpa using hroom)
  obtain ⟨x', R', hchildren⟩ := hp.free_child hord (by simpa using hroom)
  have hcap := hp.capacity
  have hord := hp.order
  rw [hkeys] at hcap
  rw [hchildren] at hord
  obtain ⟨y, -, hshift⟩ := forDown_shift (e := Fault.outOfRange) (d := 0) K₁ K₂ x R hn.symm
  obtain ⟨y', -, hshift'⟩ := forDown_shift (e := Fault.outOfRange) (n := n) (d := 1)
    (D₁ ++ [some c]) D₂ x' R' (by simp; omega)
  rw [hD₂] at hshift'
  -- the cells that the loop has left behind take the middle key and the second half
  have hput : put Fault.outOfRange (K₁ ++ y :: (K₂ ++ R)) (min n p.keyNum) m =
      .ok (K₁ ++ m :: (K₂ ++ R)) := put_at (by omega)
  have hput' := put_at (e := Fault.outOfRange) (A := D₁ ++ [some c]) (y := y') (x := some c₂)
    (C := D₂ ++ R') (i := min n p.keyNum + 1) (by simp; omega)
  refine ⟨_, _, _, _, ?_, hput, hput', hp.isLeaf, ?_, ⟨R, by simp⟩, ?_, ⟨R', ?_⟩, ?_, ?_, by simp⟩
  · rw [hcount, hkeys, hchildren]
    exact forDown_pair (by simpa using hshift) (by simpa using hshift')
  · simp
    omega
  · simp at hcap ⊢
    omega
  · rw [hn, ← hD]
    simp
  · simp at hord ⊢
    omega
  · simp
    omega

/-- Keys are copied from one node to another, with the children around them. The last child is
copied by itself. -/
theorem copyCells {A B S W E F : List ℤ} {A' D S' V G H : List (Option BtreeNode)}
    {d z : Option BtreeNode} {i j : ℕ} (hA : A.length = j) (hA' : A'.length = j)
    (hW : W.length = i) (hV : V.length = i) (hE : E.length = B.length)
    (hD : D.length = B.length) (hG : G.length = B.length) :
    forUp (both (copy Fault.outOfRange (A ++ (B ++ S)) i j)
        (copy Fault.outOfRange (A' ++ (D ++ d :: S')) i j)) 0 B.length
        (W ++ (E ++ F), V ++ (G ++ z :: H)) = .ok (W ++ (B ++ F), V ++ (D ++ z :: H)) ∧
      (get Fault.outOfRange (A' ++ (D ++ d :: S')) (j + B.length) >>=
        put Fault.outOfRange (V ++ (D ++ z :: H)) (i + B.length)) =
          .ok (V ++ (D ++ d :: H)) := by
  have hkeys := forUp_copy (e := Fault.outOfRange) A B S W E F (n := 0) (d := i) (k := j)
    (by omega) (by omega) hE
  have hchildren := forUp_copy (e := Fault.outOfRange) A' D (d :: S') V G (z :: H) (n := 0)
    (d := i) (k := j) (by omega) (by omega) (hG.trans hD.symm)
  rw [hD] at hchildren
  refine ⟨forUp_pair hkeys hchildren, ?_⟩
  have hget : get Fault.outOfRange (A' ++ (D ++ d :: S')) (j + B.length) = .ok d := by
    rw [← List.append_assoc]
    exact get_at (by rw [List.length_append]; omega)
  rw [hget, ok_bind, ← List.append_assoc, ← List.append_assoc]
  exact put_at (by rw [List.length_append]; omega)

/-- The cells of a new node: those for `n` keys, those behind them that it is to count, and the
rest. -/
theorem createNode_cells (hn : n ≤ t.kMinNum) (hmin : t.kMinNum ≤ t.kMaxNum)
    (hord : t.kMaxNum < t.order) (lc : Bool) :
    ∃ a b b', t.kMinNum = n + a ∧ t.kMaxNum = n + (a + b) ∧ t.order = n + (a + b' + 1) ∧
      (createNode t lc).keys =
        List.replicate n 0 ++ (List.replicate a 0 ++ List.replicate b 0) ∧
      (createNode t lc).children =
        List.replicate n none ++ none :: (List.replicate a none ++ List.replicate b' none) := by
  obtain ⟨a, ha⟩ := Nat.exists_eq_add_of_le hn
  obtain ⟨b, hb⟩ := Nat.exists_eq_add_of_le hmin
  obtain ⟨b', hb'⟩ := Nat.exists_eq_add_of_le (show t.kMinNum + 1 ≤ t.order by omega)
  have hmax : t.kMaxNum = n + (a + b) := by omega
  have horder : t.order = n + (a + b' + 1) := by omega
  refine ⟨a, b, b', ha, hmax, horder, ?_, ?_⟩
  · rw [List.replicate_append_replicate, List.replicate_append_replicate, ← hmax]
    rfl
  · rw [List.replicate_append_replicate, ← List.replicate_succ, List.replicate_append_replicate,
      ← horder]
    rfl

/-- **The rear of a full node**, copied to a new one. The new node counts the smallest number
of keys as its own, also where fewer have been copied: it then has cells among them that are
as the allocation has left them. -/
theorem Live.rear (hmid : t.kMidIdx = t.kMinNum) (hord : t.kMaxNum < t.order)
    (hc : Live t c lc (Ka ++ m :: Kb) (Da ++ Db)) (hfull : (Ka ++ m :: Kb).length = t.kMaxNum)
    (hKa : Ka.length = t.kMinNum) (hKb : Kb.length ≤ t.kMinNum)
    (hDa : Da.length = t.kMinNum + 1) :
    ∃ keys children children',
      forUp (both (copy Fault.outOfRange c.keys 0 (t.kMidIdx + 1))
        (copy Fault.outOfRange c.children 0 (t.kMidIdx + 1))) 0 (t.kMaxNum - (t.kMidIdx + 1))
        ((createNode t lc).keys, (createNode t lc).children) = .ok (keys, children) ∧
      (get Fault.outOfRange c.children (t.kMidIdx + 1 + (t.kMaxNum - (t.kMidIdx + 1))) >>=
        put Fault.outOfRange children (t.kMaxNum - (t.kMidIdx + 1))) = .ok children' ∧
      Live t ⟨keys, children', t.kMinNum, lc⟩ lc
        (Kb ++ List.replicate (t.kMinNum - Kb.length) 0)
        (Db ++ List.replicate (t.kMinNum - Kb.length) none) := by
  obtain ⟨rest, hck⟩ := hc.keys
  obtain ⟨crest, hcc⟩ := hc.children
  have hcount := hc.count
  simp only [List.length_append, List.length_cons] at hcount hfull
  have hcnt : t.kMaxNum - (t.kMidIdx + 1) = Kb.length := by omega
  -- the loop copies as many children as keys, and the last child by itself
  obtain ⟨D, d, rfl⟩ := exists_last (show 0 < Db.length by omega)
  simp only [List.length_append, List.length_singleton] at hcount
  obtain ⟨a, b, b', ha, hb, hb', hkeys, hchildren⟩ :=
    createNode_cells hKb (show t.kMinNum ≤ t.kMaxNum by omega) hord lc
  obtain ⟨hloop, hlast⟩ := @copyCells (Ka ++ [m]) Kb rest [] (List.replicate Kb.length 0)
    (List.replicate a 0 ++ List.replicate b 0) Da D crest [] (List.replicate Kb.length none)
    (List.replicate a none ++ List.replicate b' none) d none 0 (t.kMidIdx + 1) (by simp; omega)
    (by omega) rfl rfl (by simp) (by omega) (by simp)
  rw [show t.kMinNum - Kb.length = a by omega]
  refine ⟨Kb ++ (List.replicate a 0 ++ List.replicate b 0),
    D ++ none :: (List.replicate a none ++ List.replicate b' none),
    D ++ d :: (List.replicate a none ++ List.replicate b' none), ?_, ?_, rfl, ?_,
    ⟨List.replicate b 0, by simp⟩, ?_, ⟨List.replicate b' none, by simp⟩, ?_, ?_, ?_⟩
  · rw [hcnt, hck, hcc, hkeys, hchildren]
    simpa using hloop
  · rw [hcnt, hcc]
    simpa using hlast
  · simpa using ha
  · simpa using hb.symm
  · simp
    omega
  · simp
    omega
  · intro hlc x hx
    have hnull := hc.null hlc
    rw [hcc] at hnull
    -- behind the copied children stands what the new node has been made with
    simp only [List.mem_append, List.mem_cons, List.mem_replicate] at hx
    rcases hx with hx | rfl | hx | hx
    · exact hnull x (by simp [hx])
    · exact hnull x (by simp)
    · exact hx.2
    · exact hx.2

/-- **A split** of the full child `c` moves its middle key up, and its rear goes to a new node
that counts as many keys as are left in front of the middle. -/
theorem splitChild_live (hmid : t.kMidIdx = t.kMinNum) (hord : t.kMaxNum < t.order)
    (hp : Live t p false (K₁ ++ K₂) (D₁ ++ some c :: D₂)) (hn : n = K₁.length)
    (hD : D₁.length = K₁.length) (hroom : (K₁ ++ K₂).length < t.kMaxNum)
    (hc : Live t c lc (Ka ++ m :: Kb) (Da ++ Db)) (hfull : (Ka ++ m :: Kb).length = t.kMaxNum)
    (hKa : Ka.length = t.kMinNum) (hKb : Kb.length ≤ t.kMinNum)
    (hDa : Da.length = t.kMinNum + 1) :
    ∃ p' c₁ c₂, splitChild t p n = .ok p' ∧
      Live t p' false (K₁ ++ m :: K₂) (D₁ ++ some c₁ :: some c₂ :: D₂) ∧ Live t c₁ lc Ka Da ∧
      Live t c₂ lc (Kb ++ List.replicate (t.kMinNum - Kb.length) 0)
        (Db ++ List.replicate (t.kMinNum - Kb.length) none) := by
  have hchild : childAt p n = .ok c := hp.childAt (hn.trans hD.symm)
  have hmidkey : get Fault.outOfRange c.keys t.kMidIdx = .ok m :=
    hc.get_key (hmid.trans hKa.symm)
  have hnmax : ¬n > t.kMaxNum := by
    simp only [List.length_append] at hroom
    omega
  obtain ⟨keys₂, children₂, children₂', hcopy, hlast, hc₂⟩ :=
    hc.rear hmid hord hfull hKa hKb hDa
  obtain ⟨keys, children, keys', children', hloop, hput, hput', hp'⟩ :=
    hp.makeRoom hord hn hD hroom m { c with keyNum := t.kMinNum }
      ⟨keys₂, children₂', t.kMinNum, lc⟩
  obtain ⟨rest, hck⟩ := hc.keys
  obtain ⟨crest, hcc⟩ := hc.children
  refine ⟨_, _, _, ?_, hp', ?_, hc₂⟩
  · have hleaf : c.isLeaf = lc := hc.isLeaf
    have hnew : (createNode t lc).isLeaf = lc := rfl
    rw [splitChild, if_neg hnmax]
    simp only [hchild, ok_bind, hleaf, hloop, hmidkey, hput, hcopy, hlast, hnew, hput']
  · exact ⟨hc.isLeaf, hKa.symm, ⟨m :: Kb ++ rest, by simp [hck]⟩, hc.capacity,
      ⟨Db ++ crest, by simp [hcc]⟩, hc.order, by omega, hc.null⟩

/-- A split at an even order: the two halves of the child stand around its middle key. -/
theorem splitChild_spec (ht : Params t)
    (hp : Live t p false (K₁ ++ K₂) (D₁ ++ some c :: D₂)) (hn : n = K₁.length)
    (hD : D₁.length = K₁.length) (hroom : (K₁ ++ K₂).length < t.kMaxNum)
    (hc : Live t c lc (Ka ++ m :: Kb) (Da ++ Db)) (hKa : Ka.length = t.kMinNum)
    (hKb : Kb.length = t.kMinNum) (hDa : Da.length = t.kMinNum + 1) :
    ∃ p' c₁ c₂, splitChild t p n = .ok p' ∧
      Live t p' false (K₁ ++ m :: K₂) (D₁ ++ some c₁ :: some c₂ :: D₂) ∧
      Live t c₁ lc Ka Da ∧ Live t c₂ lc Kb Db := by
  have hmax := ht.max
  have hfull : (Ka ++ m :: Kb).length = t.kMaxNum := by
    simp only [List.length_append, List.length_cons]
    omega
  have hsplit := splitChild_live ht.mid ht.lt_order hp hn hD hroom hc hfull hKa hKb.le hDa
  simpa [hKb] using hsplit

/-- **A new root** over a full node, which is split. -/
theorem Live.growRoot (ht : Params t) (hc : Live t c lc (Ka ++ m :: Kb) (Da ++ Db))
    (hKa : Ka.length = t.kMinNum) (hKb : Kb.length = t.kMinNum)
    (hDa : Da.length = t.kMinNum + 1) :
    ∃ children root c₁ c₂,
      put Fault.outOfRange (createNode t false).children 0 (some c) = .ok children ∧
      splitChild t { createNode t false with children := children } 0 = .ok root ∧
      Live t root false [m] [some c₁, some c₂] ∧ Live t c₁ lc Ka Da ∧ Live t c₂ lc Kb Db := by
  have hord := ht.order
  have hmax := ht.max
  have hput : put Fault.outOfRange (createNode t false).children 0 (some c) =
      .ok (some c :: List.replicate (t.order - 1) none) := by
    obtain ⟨n, hn⟩ : ∃ n, t.order = n + 1 := ⟨t.order - 1, by omega⟩
    simp only [createNode, hn, List.replicate_succ]
    exact put_at (A := []) rfl
  have hnew : Live t { createNode t false with
      children := some c :: List.replicate (t.order - 1) none } false ([] ++ [])
      ([] ++ some c :: []) := by
    refine ⟨rfl, rfl, ⟨_, rfl⟩, List.length_replicate, ⟨_, rfl⟩, ?_, rfl, by simp⟩
    simp
    omega
  obtain ⟨root, c₁, c₂, hsplit, hroot, hc₁, hc₂⟩ :=
    splitChild_spec ht hnew rfl rfl (by simp; omega) hc hKa hKb hDa
  exact ⟨_, root, c₁, c₂, hput, hsplit, hroot, hc₁, hc₂⟩

/-! ### Merging two children -/

/-- The free cells of a node are enough for a key and `n` more. -/
theorem Live.free_cells (hord : t.kMaxNum < t.order) (hl : Live t l lc Ka Da)
    (hfit : Ka.length + (1 + n) ≤ t.kMaxNum) :
    ∃ x E F G z H, l.keys = Ka ++ x :: (E ++ F) ∧ l.children = Da ++ (G ++ z :: H) ∧
      E.length = n ∧ G.length = n := by
  obtain ⟨R, hkeys⟩ := hl.keys
  obtain ⟨C, hchildren⟩ := hl.children
  have hcap := hl.capacity
  have horder := hl.order
  have hcount := hl.count
  rw [hkeys, List.length_append] at hcap
  rw [hchildren, List.length_append] at horder
  obtain ⟨x, R, rfl⟩ : ∃ x R', R = x :: R' := List.exists_cons_of_length_pos (by omega)
  rw [List.length_cons] at hcap
  obtain ⟨E, F, rfl, hE⟩ : ∃ E F, R = E ++ F ∧ E.length = n :=
    ⟨R.take n, R.drop n, by simp, by simp; omega⟩
  obtain ⟨G, H, rfl, hG⟩ : ∃ G H, C = G ++ H ∧ G.length = n :=
    ⟨C.take n, C.drop n, by simp, by simp; omega⟩
  rw [List.length_append] at horder
  obtain ⟨z, H, rfl⟩ : ∃ z H', H = z :: H' := List.exists_cons_of_length_pos (by omega)
  exact ⟨x, E, F, G, z, H, hkeys, hchildren, hE, hG⟩

/-- The left child of a merge takes over the separating key and the right child. -/
theorem Live.takeOver (ht : Params t) (hl : Live t l lc Ka Da) (hr : Live t r lc Kb Db)
    (hfit : Ka.length + (1 + Kb.length) ≤ t.kMaxNum) (s : ℤ) :
    ∃ keys₀ keys children children',
      put Fault.outOfRange l.keys l.keyNum s = .ok keys₀ ∧
      forUp (both (copy Fault.outOfRange r.keys (l.keyNum + 1) 0)
        (copy Fault.outOfRange r.children (l.keyNum + 1) 0)) 0 r.keyNum (keys₀, l.children) =
        .ok (keys, children) ∧
      (get Fault.outOfRange r.children r.keyNum >>=
        put Fault.outOfRange children (l.keyNum + 1 + r.keyNum)) = .ok children' ∧
      Live t { l with
        keys := keys, children := children', keyNum := l.keyNum + (1 + r.keyNum) } lc
        (Ka ++ s :: Kb) (Da ++ Db) := by
  have hlnum := hl.keyNum
  have hrnum := hr.keyNum
  have hlcount := hl.count
  have hrcount := hr.count
  obtain ⟨Rr, hrk⟩ := hr.keys
  obtain ⟨Cr, hrc⟩ := hr.children
  -- the free cells of the left child, as many as the right one needs, and the rest
  obtain ⟨x, E, F, G, z, H, hlk, hlc, hE, hG⟩ := hl.free_cells ht.lt_order hfit
  have hcap := hl.capacity
  have hord := hl.order
  rw [hlk] at hcap
  rw [hlc] at hord
  -- the loop copies as many children as keys, and the last child by itself
  obtain ⟨D, d, rfl⟩ := exists_last (show 0 < Db.length by omega)
  simp only [List.length_append, List.length_singleton] at hrcount
  have hput : put Fault.outOfRange l.keys l.keyNum s = .ok (Ka ++ s :: (E ++ F)) := by
    rw [hlk]
    exact put_at hlnum
  obtain ⟨hloop, hlast⟩ := @copyCells [] Kb Rr (Ka ++ [s]) E F [] D Cr Da G H d z (l.keyNum + 1) 0
    rfl rfl (by simp; omega) (by omega) hE (by omega) hG
  refine ⟨_, Ka ++ s :: (Kb ++ F), Da ++ (D ++ z :: H), Da ++ (D ++ d :: H), hput, ?_, ?_,
    hl.isLeaf, ?_, ⟨F, by simp⟩, ?_, ⟨H, by simp⟩, ?_, ?_, ?_⟩
  · rw [hrk, hrc, hlc, hrnum]
    simpa using hloop
  · rw [hrc, hrnum]
    simpa using hlast
  · simp
    omega
  · simp at hcap ⊢
    omega
  · simp at hord ⊢
    omega
  · simp
    omega
  · intro hleaf x hx
    have hnull := hl.null hleaf
    have hnull' := hr.null hleaf
    rw [hlc] at hnull
    rw [hrc] at hnull'
    simp only [List.mem_append, List.mem_cons] at hx hnull hnull'
    rcases hx with hx | hx | rfl | hx
    · exact hnull x (by simp [hx])
    · exact hnull' x (by simp [hx])
    · exact hnull' x (by simp)
    · exact hnull x (by simp [hx])

/-- The parent of a merge closes the gap behind the merged child. -/
theorem Live.closeGap (hp : Live t p false (K₁ ++ s :: K₂) (D₁ ++ some l :: some r :: D₂))
    (hn : n = K₁.length) (hD : D₁.length = K₁.length) (c : BtreeNode) :
    ∃ keys children children',
      forUp (both (down Fault.outOfRange 0) (down Fault.outOfRange 1)) n (p.keyNum - 1 - n)
        (p.keys, p.children) = .ok (keys, children) ∧
      put Fault.outOfRange children (n + (p.keyNum - 1 - n) + 1) none = .ok children' ∧
      Live t (BtreeNode.setChild { p with
        keys := keys, children := children', keyNum := p.keyNum - 1 } n c) false
        (K₁ ++ K₂) (D₁ ++ some c :: D₂) := by
  have hpcount := hp.count
  have hpnum := hp.keyNum
  simp only [List.length_append, List.length_cons] at hpcount hpnum
  have hcount : p.keyNum - 1 - n = K₂.length := by omega
  have hD₂ : D₂.length = K₂.length := by omega
  obtain ⟨R, hkeys⟩ := hp.keys
  obtain ⟨R', hchildren⟩ := hp.children
  have hcap := hp.capacity
  have hord := hp.order
  rw [hkeys] at hcap
  rw [hchildren] at hord
  obtain ⟨y, -, hshift⟩ := forUp_shift (e := Fault.outOfRange) (n := n) (d := 0) K₁ s K₂ R
    (by omega)
  obtain ⟨y', -, hshift'⟩ := forUp_shift (e := Fault.outOfRange) (n := n) (d := 1)
    (D₁ ++ [some l]) (some r) D₂ R' (by simp; omega)
  rw [hD₂] at hshift'
  -- the cell that is left over by the loop is set to `NULL`
  have hput := put_at (e := Fault.outOfRange) (A := D₁ ++ [some l] ++ D₂) (y := y') (x := none)
    (C := R') (i := n + (p.keyNum - 1 - n) + 1) (by simp; omega)
  refine ⟨K₁ ++ (K₂ ++ y :: R), D₁ ++ [some l] ++ (D₂ ++ y' :: R'), _, ?_, by simpa using hput,
    hp.isLeaf, ?_, ⟨y :: R, by simp [BtreeNode.setChild]⟩, ?_, ⟨none :: R', ?_⟩, ?_, ?_, by simp⟩
  · rw [hcount, hkeys, hchildren]
    exact forUp_pair (by simpa using hshift) (by simpa using hshift')
  · simp [BtreeNode.setChild]
    omega
  · simp [BtreeNode.setChild] at hcap ⊢
    omega
  · simp only [BtreeNode.setChild]
    rw [hn, ← hD]
    simp
  · simp [BtreeNode.setChild] at hord ⊢
    omega
  · simp
    omega

/-- **A merge** brings the key between two children down between their keys. The parent
is freed when that was its last key, and keeps its other cells otherwise. -/
theorem mergeChildren_spec (ht : Params t)
    (hp : Live t p false (K₁ ++ s :: K₂) (D₁ ++ some l :: some r :: D₂)) (hn : n = K₁.length)
    (hD : D₁.length = K₁.length) (hl : Live t l lc Ka Da) (hr : Live t r lc Kb Db)
    (hfit : Ka.length + (1 + Kb.length) ≤ t.kMaxNum) :
    ∃ c, Live t c lc (Ka ++ s :: Kb) (Da ++ Db) ∧
      ((K₁ ++ K₂ = [] ∧ mergeChildren p n = .ok (c, none)) ∨
        (K₁ ++ K₂ ≠ [] ∧ ∃ p', mergeChildren p n = .ok (c, some p') ∧
          Live t p' false (K₁ ++ K₂) (D₁ ++ some c :: D₂))) := by
  have hleft : childAt p n = .ok l := hp.childAt (hn.trans hD.symm)
  have hright : childAt p (n + 1) = .ok r := by
    have hp' : Live t p false (K₁ ++ s :: K₂) ((D₁ ++ [some l]) ++ some r :: D₂) := by
      simpa using hp
    exact hp'.childAt (by simp; omega)
  have hkey : get Fault.outOfRange p.keys n = .ok s := hp.get_key hn
  obtain ⟨keys₀, keys, children, children', hput, hcopy, hlast, hc⟩ := hl.takeOver ht hr hfit s
  obtain ⟨pkeys, pchildren, pchildren', hloop, hput', hp'⟩ := hp.closeGap hn hD
    { l with keys := keys, children := children', keyNum := l.keyNum + (1 + r.keyNum) }
  have hpnum := hp.keyNum
  simp only [List.length_append, List.length_cons] at hpnum
  refine ⟨_, hc, ?_⟩
  -- the test of the source, that there is no key left
  by_cases hempty : K₁ ++ K₂ = []
  · refine Or.inl ⟨hempty, ?_⟩
    obtain ⟨rfl, rfl⟩ := List.append_eq_nil_iff.mp hempty
    have hzero : p.keyNum - 1 = 0 := by
      simp only [List.length_nil] at hpnum
      omega
    simp only [mergeChildren, hleft, hright, ok_bind, hkey, hput, hcopy, hlast, hloop, hput']
    rw [if_pos hzero]
  · refine Or.inr ⟨hempty, _, ?_, hp'⟩
    have hpos : ¬p.keyNum - 1 = 0 := by
      have := List.length_pos_iff.mpr hempty
      rw [List.length_append] at this
      omega
    simp only [mergeChildren, hleft, hright, ok_bind, hkey, hput, hcopy, hlast, hloop, hput']
    rw [if_neg hpos]

/-! ### Borrowing from a sibling -/

/-- A node with room gets a key at the end, and the child behind it. -/
theorem Live.pushBack (ht : Params t) (hc : Live t c lc Ka Da) (hroom : Ka.length < t.kMaxNum)
    (s : ℤ) (x : Option BtreeNode) (hx : lc = true → x = none) :
    ∃ keys children, put Fault.outOfRange c.keys c.keyNum s = .ok keys ∧
      put Fault.outOfRange c.children (c.keyNum + 1) x = .ok children ∧
      Live t { c with keys := keys, children := children, keyNum := c.keyNum + 1 } lc
        (Ka ++ [s]) (Da ++ [x]) := by
  have hcnum := hc.keyNum
  have hccount := hc.count
  have hcap := hc.capacity
  have hord := hc.order
  obtain ⟨z, R, hck⟩ := hc.free_key hroom
  obtain ⟨z', C, hcc⟩ := hc.free_child ht.lt_order hroom
  have hput : put Fault.outOfRange c.keys c.keyNum s = .ok (Ka ++ s :: R) := by
    rw [hck]
    exact put_at hcnum
  have hput' : put Fault.outOfRange c.children (c.keyNum + 1) x = .ok (Da ++ x :: C) := by
    rw [hcc]
    exact put_at (by omega)
  rw [hck] at hcap
  rw [hcc] at hord
  refine ⟨_, _, hput, hput', hc.isLeaf, by simp [hcnum], ⟨R, by simp⟩, by simpa using hcap,
    ⟨C, by simp⟩, by simpa using hord, by simp [hccount], fun hleaf y hy => ?_⟩
  have hnull := hc.null hleaf
  rw [hcc] at hnull
  simp only [List.mem_append, List.mem_cons] at hy hnull
  rcases hy with hy | rfl | hy
  · exact hnull y (by simp [hy])
  · exact hx hleaf
  · exact hnull y (by simp [hy])

/-- A node loses its first key and the child in front of it. -/
theorem Live.popFront {x : Option BtreeNode} (hr : Live t r lc (k :: Kb) (x :: Db)) :
    ∃ keys children children' children'',
      forUp (both (down Fault.outOfRange 0) (down Fault.outOfRange 0)) 0 (r.keyNum - 1)
        (r.keys, r.children) = .ok (keys, children) ∧
      (get Fault.outOfRange children (r.keyNum - 1 + 1) >>=
        put Fault.outOfRange children (r.keyNum - 1)) = .ok children' ∧
      put Fault.outOfRange children' (r.keyNum - 1 + 1) none = .ok children'' ∧
      Live t { r with keys := keys, children := children'', keyNum := r.keyNum - 1 } lc Kb Db := by
  have hrnum := hr.keyNum
  have hrcount := hr.count
  have hcap := hr.capacity
  have hord := hr.order
  simp only [List.length_cons] at hrnum hrcount
  obtain ⟨R, hrk⟩ := hr.keys
  obtain ⟨C, hrc⟩ := hr.children
  -- the loop moves as many children as keys, and the last child by itself
  obtain ⟨D, d, rfl⟩ := exists_last (show 0 < Db.length by omega)
  simp only [List.length_append, List.length_singleton] at hrcount
  have hcount : r.keyNum - 1 = Kb.length := by omega
  obtain ⟨y, -, hshift⟩ := forUp_shift (e := Fault.outOfRange) (n := 0) (d := 0) [] k Kb R rfl
  obtain ⟨y', -, hshift'⟩ := forUp_shift (e := Fault.outOfRange) (n := 0) (d := 0) [] x D
    (d :: C) rfl
  rw [show D.length = Kb.length by omega] at hshift'
  have hloop : forUp (both (down Fault.outOfRange 0) (down Fault.outOfRange 0)) 0 (r.keyNum - 1)
      (r.keys, r.children) = .ok (Kb ++ y :: R, D ++ y' :: d :: C) := by
    rw [hcount, hrk, hrc]
    exact forUp_pair (by simpa using hshift) (by simpa using hshift')
  have hlast : get Fault.outOfRange (D ++ y' :: d :: C) (r.keyNum - 1 + 1) = .ok d := by
    have := get_at (e := Fault.outOfRange) (A := D ++ [y']) (x := d) (C := C)
      (i := r.keyNum - 1 + 1) (by simp; omega)
    simpa using this
  have hput : put Fault.outOfRange (D ++ y' :: d :: C) (r.keyNum - 1) d =
      .ok (D ++ d :: d :: C) := put_at (by omega)
  have hput' : put Fault.outOfRange (D ++ d :: d :: C) (r.keyNum - 1 + 1) none =
      .ok (D ++ d :: none :: C) := by
    have := put_at (e := Fault.outOfRange) (A := D ++ [d]) (y := d) (x := none) (C := C)
      (i := r.keyNum - 1 + 1) (by simp; omega)
    simpa using this
  rw [hrk] at hcap
  rw [hrc] at hord
  refine ⟨_, _, _, _, hloop, by rw [hlast, ok_bind]; exact hput, hput', hr.isLeaf, hcount,
    ⟨y :: R, rfl⟩, ?_, ⟨none :: C, by simp⟩, ?_, ?_, fun hleaf w hw => ?_⟩
  · simp at hcap ⊢
    omega
  · simp at hord ⊢
    omega
  · simp
    omega
  · have hnull := hr.null hleaf
    rw [hrc] at hnull
    -- what is left at the place of the last child is `NULL`
    simp only [List.mem_append, List.mem_cons] at hw hnull
    rcases hw with hw | rfl | rfl | hw
    · exact hnull w (by simp [hw])
    · exact hnull w (by simp)
    · rfl
    · exact hnull w (by simp [hw])

/-- **The branch 2.1.1** moves the first key of the right sibling up and the separating
key down to the end of the child, with the child between them. -/
theorem borrowRight_spec (ht : Params t) {k' : ℤ} {x : Option BtreeNode}
    (hp : Live t p false (K₁ ++ s :: K₂) (D₁ ++ some c :: some r :: D₂)) (hn : n = K₁.length)
    (hD : D₁.length = K₁.length) (hc : Live t c lc Ka Da) (hroom : Ka.length < t.kMaxNum)
    (hr : Live t r lc (k' :: Kb) (x :: Db)) :
    ∃ p' c' r', borrowRight p c r n = .ok (p', c') ∧
      Live t p' false (K₁ ++ k' :: K₂) (D₁ ++ some c' :: some r' :: D₂) ∧
      Live t c' lc (Ka ++ [s]) (Da ++ [x]) ∧ Live t r' lc Kb Db := by
  have hsep : get Fault.outOfRange p.keys n = .ok s := hp.get_key hn
  have hfirst : get Fault.outOfRange r.keys 0 = .ok k' := hr.get_head
  have hchild : get Fault.outOfRange r.children 0 = .ok x := hr.get_head_child
  obtain ⟨ckeys, cchildren, hput, hput', hc'⟩ :=
    hc.pushBack ht hroom s x fun hleaf => hr.ds_null hleaf x (by simp)
  obtain ⟨rkeys, rchildren, rchildren', rchildren'', hloop, hlast, hclear, hr'⟩ := hr.popFront
  obtain ⟨keys, hput'', hp₁⟩ := hp.put_key hn k'
  have hp₂ := hp₁.setChild (hn.trans hD.symm) { c with
    keys := ckeys, children := cchildren, keyNum := c.keyNum + 1 }
  have hp₃ := (show Live t _ false _ ((D₁ ++ [some _]) ++ some r :: D₂) by
    simpa using hp₂).setChild (n := n + 1) (by simp; omega) { r with
      keys := rkeys, children := rchildren'', keyNum := r.keyNum - 1 }
  refine ⟨_, _, _, ?_, by simpa using hp₃, hc', hr'⟩
  simp only [borrowRight, hsep, hput, hchild, hput', hfirst, hput'', hloop, hlast, hclear, ok_bind]

/-- A node with room gets a key at the front, and the child in front of it. -/
theorem Live.pushFront (ht : Params t) (hc : Live t c lc Kb Db) (hroom : Kb.length < t.kMaxNum)
    (s : ℤ) (x : Option BtreeNode) (hx : lc = true → x = none) :
    ∃ keys children keys' children' children'',
      forDown (both (up Fault.outOfRange 0) (up Fault.outOfRange 1)) 0 c.keyNum
        (c.keys, c.children) = .ok (keys, children) ∧
      (get Fault.outOfRange children 0 >>= put Fault.outOfRange children 1) = .ok children' ∧
      put Fault.outOfRange keys 0 s = .ok keys' ∧
      put Fault.outOfRange children' 0 x = .ok children'' ∧
      Live t { c with keys := keys', children := children'', keyNum := c.keyNum + 1 } lc
        (s :: Kb) (x :: Db) := by
  have hcnum := hc.keyNum
  have hccount := hc.count
  have hcap := hc.capacity
  have hord := hc.order
  obtain ⟨z, R, hck⟩ := hc.free_key hroom
  obtain ⟨z', C, hcc⟩ := hc.free_child ht.lt_order hroom
  -- the loop moves as many children as keys, and the first child by itself
  obtain ⟨b, D, rfl⟩ : ∃ b D, Db = b :: D := List.exists_cons_of_length_eq_add_one hccount
  simp only [List.length_cons] at hccount
  obtain ⟨y, -, hshift⟩ := forDown_shift (e := Fault.outOfRange) (n := 0) (d := 0) [] Kb z R rfl
  obtain ⟨y', -, hshift'⟩ := forDown_shift (e := Fault.outOfRange) (n := 0) (d := 1) [b] D z' C rfl
  rw [show D.length = Kb.length by omega] at hshift'
  have hloop : forDown (both (up Fault.outOfRange 0) (up Fault.outOfRange 1)) 0 c.keyNum
      (c.keys, c.children) = .ok (y :: (Kb ++ R), b :: y' :: (D ++ C)) := by
    rw [hcnum, hck, hcc]
    exact forDown_pair (by simpa using hshift) (by simpa using hshift')
  have hget : get Fault.outOfRange (b :: y' :: (D ++ C)) 0 = .ok b := rfl
  have hput : put Fault.outOfRange (b :: y' :: (D ++ C)) 1 b = .ok (b :: b :: (D ++ C)) :=
    put_at (A := [b]) rfl
  have hput' : put Fault.outOfRange (y :: (Kb ++ R)) 0 s = .ok (s :: (Kb ++ R)) :=
    put_at (A := []) rfl
  have hput'' : put Fault.outOfRange (b :: b :: (D ++ C)) 0 x = .ok (x :: b :: (D ++ C)) :=
    put_at (A := []) rfl
  rw [hck] at hcap
  rw [hcc] at hord
  refine ⟨_, _, _, _, _, hloop, by rw [hget, ok_bind]; exact hput, hput', hput'', hc.isLeaf,
    by simp [hcnum], ⟨R, by simp⟩, ?_, ⟨C, by simp⟩, ?_, by simp [hccount], fun hleaf w hw => ?_⟩
  · simp at hcap ⊢
    omega
  · simp at hord ⊢
    omega
  · have hnull := hc.null hleaf
    rw [hcc] at hnull
    simp only [List.mem_append, List.mem_cons] at hw hnull
    rcases hw with rfl | rfl | hw | hw
    · exact hx hleaf
    · exact hnull w (by simp)
    · exact hnull w (by simp [hw])
    · exact hnull w (by simp [hw])

/-- A node loses its last key and the child behind it. -/
theorem Live.popBack {x : Option BtreeNode} (hl : Live t l lc (Ka ++ [k]) (Da ++ [x])) :
    ∃ children, put Fault.outOfRange l.children l.keyNum none = .ok children ∧
      Live t { l with children := children, keyNum := l.keyNum - 1 } lc Ka Da := by
  have hlnum := hl.keyNum
  have hlcount := hl.count
  have hord := hl.order
  simp only [List.length_append, List.length_singleton] at hlnum hlcount
  obtain ⟨R, hlk⟩ := hl.keys
  obtain ⟨C, hlc⟩ := hl.children
  have hput : put Fault.outOfRange l.children l.keyNum none = .ok (Da ++ none :: C) := by
    rw [hlc, List.append_assoc]
    exact put_at (by omega)
  rw [hlc] at hord
  refine ⟨_, hput, hl.isLeaf, by simp; omega, ⟨k :: R, by simp [hlk]⟩, hl.capacity,
    ⟨none :: C, rfl⟩, ?_, by omega, fun hleaf w hw => ?_⟩
  · simp at hord ⊢
    omega
  · have hnull := hl.null hleaf
    rw [hlc] at hnull
    simp only [List.mem_append, List.mem_cons] at hw hnull
    rcases hw with hw | rfl | hw
    · exact hnull w (by simp [hw])
    · rfl
    · exact hnull w (by simp [hw])

/-- **The branch 2.1.2** moves the last key of the left sibling up and the separating key
down to the front of the child, with the child between them. -/
theorem borrowLeft_spec (ht : Params t) {k' : ℤ} {x : Option BtreeNode}
    (hp : Live t p false (K₁ ++ s :: K₂) (D₁ ++ some l :: some c :: D₂)) (hn : n = K₁.length + 1)
    (hD : D₁.length = K₁.length) (hc : Live t c lc Kb Db) (hroom : Kb.length < t.kMaxNum)
    (hl : Live t l lc (Ka ++ [k']) (Da ++ [x])) :
    ∃ p' c' l', borrowLeft p c l n = .ok (p', c') ∧
      Live t p' false (K₁ ++ k' :: K₂) (D₁ ++ some l' :: some c' :: D₂) ∧
      Live t c' lc (s :: Kb) (x :: Db) ∧ Live t l' lc Ka Da := by
  have hlnum := hl.keyNum
  have hlcount := hl.count
  simp only [List.length_append, List.length_singleton] at hlnum hlcount
  have hsep : getPred Fault.outOfRange p.keys n = .ok s := by
    rw [hn]
    exact hp.get_key rfl
  have hchild : get Fault.outOfRange l.children l.keyNum = .ok x := hl.get_child (by omega)
  have hlast : getPred Fault.outOfRange l.keys l.keyNum = .ok k' := by
    rw [hlnum]
    exact hl.get_key rfl
  obtain ⟨ckeys, cchildren, ckeys', cchildren', cchildren'', hloop, hfront, hput, hput', hc'⟩ :=
    hc.pushFront ht hroom s x fun hleaf => hl.ds_null hleaf x (by simp)
  obtain ⟨lchildren, hclear, hl'⟩ := hl.popBack
  obtain ⟨keys, hput'', hp₁⟩ := hp.put_key (n := n - 1) (by omega) k'
  have hp₂ := (show Live t _ false _ ((D₁ ++ [some l]) ++ some c :: D₂) by
    simpa using hp₁).setChild (n := n) (by simp; omega) { c with
      keys := ckeys', children := cchildren'', keyNum := c.keyNum + 1 }
  have hp₃ := (show Live t _ false _ (D₁ ++ some l :: some _ :: D₂) by
    simpa using hp₂).setChild (n := n - 1) (by omega) { l with
      children := lchildren, keyNum := l.keyNum - 1 }
  refine ⟨_, _, _, ?_, hp₃, hc', hl'⟩
  simp only [borrowLeft, hloop, hfront, hsep, hput, hchild, hput', hclear, hlast, hput'', ok_bind]

/-! ### Searching a node -/

/-- The descending loops stop behind the last key that is not above `key`. -/
theorem findChild_spec {keys : List ℤ} {key : ℤ} {A B C : List ℤ} (hkeys : keys = A ++ (B ++ C))
    (hA : ∀ a ∈ A.getLast?, a ≤ key) (hB : ∀ b ∈ B, key < b) (hn : n = A.length + B.length) :
    findChild key keys n = .ok A.length := by
  induction B using List.reverseRecOn generalizing C n with
  | nil =>
    obtain rfl : n = A.length := by simpa using hn
    rcases List.eq_nil_or_concat A with rfl | ⟨A, a, rfl⟩
    · rfl
    · have hget : get Fault.outOfRange keys A.length = .ok a := by
        have := get_at (e := Fault.outOfRange) (A := A) (x := a) (C := C) rfl
        simpa [hkeys] using this
      have ha : ¬key < a := not_lt_of_ge (hA a (by simp))
      simp [findChild, hget, ha]
  | append_singleton B b ih =>
    obtain rfl : n = A.length + B.length + 1 := by
      simp at hn
      omega
    have hget : get Fault.outOfRange keys (A.length + B.length) = .ok b := by
      have := get_at (e := Fault.outOfRange) (A := A ++ B) (x := b) (C := C)
        (i := A.length + B.length) (by simp)
      simpa [hkeys] using this
    have hb : key < b := hB b (by simp)
    rw [findChild, hget, ok_bind, if_pos hb]
    exact ih (C := b :: C) (by simpa using hkeys) (fun x hx => hB x (by simp [hx])) rfl

/-- The loop at a leaf moves the keys above `key` up, over a free cell. -/
theorem insertShift_spec {key : ℤ} {A B : List ℤ} (x : ℤ) (C : List ℤ)
    (hA : ∀ a ∈ A.getLast?, a ≤ key) (hB : ∀ b ∈ B, key < b) (hn : n = A.length + B.length) :
    ∃ y, insertShift key n (A ++ (B ++ x :: C)) = .ok (A.length, A ++ y :: (B ++ C)) := by
  induction B using List.reverseRecOn generalizing x C n with
  | nil =>
    refine ⟨x, ?_⟩
    obtain rfl : n = A.length := by simpa using hn
    rcases List.eq_nil_or_concat A with rfl | ⟨A, a, rfl⟩
    · rfl
    · have hget : get Fault.outOfRange (A ++ [a] ++ ([] ++ x :: C)) A.length = .ok a := by
        have := get_at (e := Fault.outOfRange) (A := A) (x := a) (C := x :: C) rfl
        simpa using this
      have ha : ¬key < a := not_lt_of_ge (hA a (by simp))
      simp only [List.concat_eq_append, List.length_append, List.length_singleton, insertShift,
        hget, ok_bind, if_neg ha]
      simp
  | append_singleton B b ih =>
    obtain rfl : n = A.length + B.length + 1 := by
      simp at hn
      omega
    have hget : get Fault.outOfRange (A ++ (B ++ [b] ++ x :: C)) (A.length + B.length) = .ok b := by
      have := get_at (e := Fault.outOfRange) (A := A ++ B) (x := b) (C := x :: C)
        (i := A.length + B.length) (by simp)
      simpa using this
    have hput : put Fault.outOfRange (A ++ (B ++ [b] ++ x :: C)) (A.length + B.length + 1) b =
        .ok (A ++ (B ++ b :: b :: C)) := by
      have := put_at (e := Fault.outOfRange) (A := A ++ B ++ [b]) (y := x) (x := b) (C := C)
        (i := A.length + B.length + 1) (by simp; omega)
      simpa using this
    have hb : key < b := hB b (by simp)
    obtain ⟨y, hy⟩ := ih b (b :: C) (fun x hx => hB x (by simp [hx])) rfl
    refine ⟨y, ?_⟩
    rw [insertShift, hget, ok_bind, if_pos hb, hput, ok_bind, hy]
    simp

/-- The search of a deletion stops at the first key that is not below `key`. -/
theorem findKey_spec {key : ℤ} (S A B C : List ℤ) (hA : ∀ a ∈ A, a < key)
    (hB : ∀ b ∈ B.head?, key ≤ b) :
    findKey key (S ++ (A ++ (B ++ C))) S.length (A.length + B.length) =
      .ok (S.length + A.length) := by
  induction A generalizing S with
  | nil =>
    cases B with
    | nil => rfl
    | cons b B =>
      have hget : get Fault.outOfRange (S ++ ([] ++ (b :: B ++ C))) S.length = .ok b := get_at rfl
      have hb : ¬b < key := not_lt_of_ge (hB b rfl)
      rw [List.length_nil, Nat.zero_add, List.length_cons, findKey, hget, ok_bind, if_neg hb]
      rfl
  | cons a A ih =>
    have hget : get Fault.outOfRange (S ++ (a :: A ++ (B ++ C))) S.length = .ok a := get_at rfl
    have hcount : (a :: A).length + B.length = A.length + B.length + 1 := by
      simp
      omega
    have hstep := ih (S ++ [a]) fun x hx => hA x (by simp [hx])
    rw [hcount, findKey, hget, ok_bind, if_pos (hA a (by simp))]
    have hlen : (S ++ [a]).length = S.length + 1 := by simp
    rw [hlen] at hstep
    rw [List.length_cons, show S.length + (A.length + 1) = S.length + 1 + A.length by omega,
      ← hstep]
    simp

/-- The search of a deletion in the live keys of a node. -/
theorem Live.findKey_eq (h : Live t node lf (Ka ++ Kb) ds) {key : ℤ} (ha : ∀ a ∈ Ka, a < key)
    (hb : ∀ b ∈ Kb.head?, key ≤ b) : findKey key node.keys 0 node.keyNum = .ok Ka.length := by
  obtain ⟨rest, hrest⟩ := h.keys
  have hspec := findKey_spec [] Ka Kb rest ha hb
  rw [h.keyNum, hrest, List.length_append]
  simpa using hspec

/-! ### Leaves -/

/-- **A key goes into a leaf** with room, behind the last key that is not above it. -/
theorem Live.insert (ht : Params t) (h : Live t node true (Ka ++ Kb) ds) {key : ℤ}
    (hroom : (Ka ++ Kb).length < t.kMaxNum) (ha : ∀ a ∈ Ka.getLast?, a ≤ key)
    (hb : ∀ b ∈ Kb, key < b) :
    ∃ i keys keys' ds', insertShift key node.keyNum node.keys = .ok (i, keys) ∧
      put Fault.outOfRange keys i key = .ok keys' ∧
      Live t { node with keys := keys', keyNum := node.keyNum + 1 } true (Ka ++ key :: Kb) ds' := by
  obtain ⟨x, R, hkeys⟩ := h.free_key hroom
  obtain ⟨x', R', hchildren⟩ := h.free_child ht.lt_order hroom
  have hnum := h.keyNum
  have hcap := h.capacity
  rw [hkeys] at hcap
  rw [List.length_append] at hnum
  obtain ⟨y, hloop⟩ := insertShift_spec x R ha hb hnum
  refine ⟨_, Ka ++ y :: (Kb ++ R), Ka ++ key :: (Kb ++ R), ds ++ [x'], ?_, put_at rfl, h.isLeaf, ?_,
    ⟨R, by simp⟩, ?_, ⟨R', by simpa using hchildren⟩, h.order, ?_, h.null⟩
  · rw [hkeys]
    simpa using hloop
  · simp
    omega
  · simp at hcap ⊢
    omega
  · have := h.count
    simp at this ⊢
    omega

/-- **A key leaves a leaf.** -/
theorem Live.remove (h : Live t node true (Ka ++ k :: Kb) ds) (hn : n = Ka.length) :
    ∃ keys ds', forUp (down Fault.outOfRange 0) n (node.keyNum - 1 - n) node.keys = .ok keys ∧
      Live t { node with keys := keys, keyNum := node.keyNum - 1 } true (Ka ++ Kb) ds' := by
  obtain ⟨R, hkeys⟩ := h.keys
  obtain ⟨C, hchildren⟩ := h.children
  have hnum := h.keyNum
  have hcap := h.capacity
  have hcount := h.count
  rw [hkeys] at hcap
  simp only [List.length_append, List.length_cons] at hnum hcount
  obtain ⟨y, -, hshift⟩ := forUp_shift (e := Fault.outOfRange) (n := n) (d := 0) Ka k Kb R
    (by omega)
  obtain ⟨D, d, rfl⟩ := exists_last (show 0 < ds.length by omega)
  have hlen : node.keyNum - 1 - n = Kb.length := by omega
  refine ⟨Ka ++ (Kb ++ y :: R), D, ?_, h.isLeaf, ?_, ⟨y :: R, by simp⟩, ?_, ⟨d :: C, ?_⟩, h.order,
    ?_, h.null⟩
  · rw [hlen, hkeys]
    simpa using hshift
  · simp
    omega
  · simp at hcap ⊢
    omega
  · simpa using hchildren
  · simp at hcount ⊢
    omega

end

end BTree

end BackendStudy
