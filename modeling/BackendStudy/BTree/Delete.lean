import BackendStudy.BTree.Insert

/-!
# Deletion from a B-tree

A deletion goes down towards its key, and before it enters a child with the smallest
number of keys it gives the child one more, from a sibling or by merging
(`BackendStudy.BTree.refill_spec`). This keeps the key sequence and the child to the right
of every key of an internal node below the child
(`BackendStudy.BTree.RightOf`), so the descent arrives at the node of the key with the
tree valid and the two sides of the key as they were.

There the source replaces a key of an internal node by the first key of the child to its
right, whatever that child is, and deletes this key in the child the same way
(`BackendStudy.BTree.deleteKey_first`). That is the in-order neighbour, and leaves enough
keys, only if the child is a leaf with more than the smallest number of keys. So for a
key of an internal node the result is known exactly
(`BackendStudy.BTree.btreeDelete_valid_iff`).
-/

namespace BackendStudy

namespace BTree

open Slots Multiway

/-! ### The child to the right of a key -/

/-- **`r` is the child to the right of `key`** in an internal node at or below a node. -/
inductive RightOf (key : ℤ) : BtreeNode → BtreeNode → Prop
  /-- The node holds the key. -/
  | here {node r : BtreeNode} {i : ℕ} : node.isLeaf = false → i < node.keyNum →
      node.keys[i]? = some key → node.children[i + 1]? = some (some r) → RightOf key node r
  /-- A node below it does. -/
  | under {node c r : BtreeNode} {i : ℕ} : node.isLeaf = false → i ≤ node.keyNum →
      node.children[i]? = some (some c) → RightOf key c r → RightOf key node r

section

variable {t : Btree} {node node' c r : BtreeNode} {lf : Bool} {h : ℕ} {key : ℤ} {l : List ℤ}
  {ks K B : List ℤ} {ds D B' : List (Option BtreeNode)}

/-- The child to the right of a key, in the live cells. -/
theorem RightOf.live_cases (hr : RightOf key node r) (hl : Live t node lf ks ds) : lf = false ∧
    ((∃ i : ℕ, ks[i]? = some key ∧ ds[i + 1]? = some (some r)) ∨
      ∃ (i : ℕ) (c : BtreeNode), ds[i]? = some (some c) ∧ RightOf key c r) := by
  obtain ⟨rest, hks⟩ := hl.keys
  obtain ⟨crest, hds⟩ := hl.children
  have hnum := hl.keyNum
  have hcount := hl.count
  cases hr with
  | @here _ _ i hleaf hi hk hc =>
    refine ⟨hl.isLeaf.symm.trans hleaf, Or.inl ⟨i, ?_, ?_⟩⟩
    · rwa [hks, List.getElem?_append_left (by omega)] at hk
    · rwa [hds, List.getElem?_append_left (by omega)] at hc
  | @under _ c _ i hleaf hi hc hrec =>
    refine ⟨hl.isLeaf.symm.trans hleaf, Or.inr ⟨i, c, ?_, hrec⟩⟩
    rwa [hds, List.getElem?_append_left (by omega)] at hc

theorem Live.rightOf_here (hl : Live t node false ks ds) {i : ℕ} (hk : ks[i]? = some key)
    (hr : ds[i + 1]? = some (some r)) : RightOf key node r := by
  obtain ⟨rest, hks⟩ := hl.keys
  obtain ⟨crest, hds⟩ := hl.children
  have hi : i < ks.length := (List.getElem?_eq_some_iff.mp hk).1
  have hi' : i + 1 < ds.length := (List.getElem?_eq_some_iff.mp hr).1
  refine .here hl.isLeaf (hl.keyNum ▸ hi) ?_ ?_
  · rw [hks, List.getElem?_append_left hi, hk]
  · rw [hds, List.getElem?_append_left hi', hr]

theorem Live.rightOf_below (hl : Live t node false ks ds) {i : ℕ} (hc : ds[i]? = some (some c))
    (hr : RightOf key c r) : RightOf key node r := by
  obtain ⟨crest, hds⟩ := hl.children
  have hi : i < ds.length := (List.getElem?_eq_some_iff.mp hc).1
  have hcount := hl.count
  refine .under hl.isLeaf (i := i) (by rw [hl.keyNum]; omega) ?_ hr
  rw [hds, List.getElem?_append_left hi, hc]

/-- **More keys and children around it** do not change the child to the right of a key. -/
theorem RightOf.extend (A : List ℤ) (A' : List (Option BtreeNode)) (hr : RightOf key node r)
    (hl : Live t node lf K D)
    (hl' : Live t node' lf (A ++ (K ++ B)) (A' ++ (D ++ B'))) (hA : A.length = A'.length) :
    RightOf key node' r := by
  obtain ⟨rfl, ⟨i, hk, hc⟩ | ⟨i, c, hc, hrec⟩⟩ := hr.live_cases hl
  · have hi : i < K.length := (List.getElem?_eq_some_iff.mp hk).1
    have hi' : i + 1 < D.length := (List.getElem?_eq_some_iff.mp hc).1
    refine hl'.rightOf_here (i := A.length + i) ?_ ?_
    · rw [List.getElem?_append_right (by omega), Nat.add_sub_cancel_left,
        List.getElem?_append_left hi, hk]
    · rw [hA, Nat.add_assoc, List.getElem?_append_right (by omega), Nat.add_sub_cancel_left,
        List.getElem?_append_left hi', hc]
  · have hi : i < D.length := (List.getElem?_eq_some_iff.mp hc).1
    refine hl'.rightOf_below (i := A'.length + i) ?_ hrec
    rw [List.getElem?_append_right (by omega), Nat.add_sub_cancel_left,
      List.getElem?_append_left hi, hc]

/-- A node that is no leaf has children. -/
theorem Holds.inside (hn : Holds t h node l) (hleaf : node.isLeaf = false) :
    ∃ h' ks ds, Live t node false ks ds ∧ Weave (Child t h') ds ks l := by
  cases h with
  | zero =>
    obtain ⟨ds, hl⟩ := hn
    exact absurd (hl.isLeaf.symm.trans hleaf) (by simp)
  | succ h =>
    obtain ⟨ks, ds, hl, hw⟩ := hn
    exact ⟨h, ks, ds, hl, hw⟩

/-- Each of them holds a part of the sequence. -/
theorem Holds.below {i : ℕ} (hn : Holds t h node l) (hleaf : node.isLeaf = false)
    (hi : i ≤ node.keyNum) (hc : node.children[i]? = some (some c)) :
    ∃ h' x, Holds t h' c x ∧ ∀ a ∈ x, a ∈ l := by
  obtain ⟨h', ks, ds, hl, hw⟩ := hn.inside hleaf
  obtain ⟨crest, hds⟩ := hl.children
  have hcount := hl.count
  rw [hds, List.getElem?_append_left (by rw [hl.keyNum] at hi; omega)] at hc
  obtain ⟨x, hx, hsub⟩ := hw.mem_subtree (List.mem_of_getElem? hc)
  exact ⟨h', x, (child_some.mp hx).2, hsub⟩

/-- A key with a child to its right is in the sequence. -/
theorem RightOf.mem (hr : RightOf key node r) (hn : Holds t h node l) : key ∈ l := by
  induction hr generalizing h l with
  | @here node r i hleaf hi hk hc =>
    obtain ⟨h', ks, ds, hl, hw⟩ := hn.inside hleaf
    obtain ⟨rest, hks⟩ := hl.keys
    rw [hks, List.getElem?_append_left (by rw [← hl.keyNum]; exact hi)] at hk
    exact hw.mem (List.mem_of_getElem? hk)
  | @under node c r i hleaf hi hc hrec ih =>
    obtain ⟨h', x, hx, hsub⟩ := hn.below hleaf hi hc
    exact hsub key (ih hx)

/-- The path to a key of an internal node goes through the child the search chooses. -/
theorem RightOf.focus {c : BtreeNode} {K₁ K₂ P S : List ℤ} {D₁ D₂ : List (Option BtreeNode)}
    (hr : RightOf key node r) (hl : Live t node false (K₁ ++ K₂) (D₁ ++ some c :: D₂))
    (hkey : key ∉ K₁ ++ K₂) (hP : Front (Child t h) D₁ K₁ P) (hS : Back (Child t h) K₂ D₂ S)
    (hPk : ∀ a ∈ P, a < key) (hSk : ∀ a ∈ S, key < a) : RightOf key c r := by
  obtain ⟨-, ⟨i, hk, -⟩ | ⟨i, c', hc, hrec⟩⟩ := hr.live_cases hl
  · exact absurd (List.mem_of_getElem? hk) hkey
  · rcases List.mem_append.mp (List.mem_of_getElem? hc) with hm | hm
    · obtain ⟨y, hy, hsub⟩ := hP.mem_subtree hm
      exact absurd (hPk key (hsub key (hrec.mem (child_some.mp hy).2))) (lt_irrefl key)
    · rcases List.mem_cons.mp hm with he | hm
      · obtain rfl := Option.some.inj he
        exact hrec
      · obtain ⟨y, hy, hsub⟩ := hS.mem_subtree hm
        exact absurd (hSk key (hsub key (hrec.mem (child_some.mp hy).2))) (lt_irrefl key)

end

/-! ### Refilling a child -/

/-- **Where the descent goes on** after it has dealt with a child `c`: in a child that has
a key to give and the height of `c`, with the key sequence of the node as before. -/
def Descends (t : Btree) (h : ℕ) (node c : BtreeNode) (l : List ℤ) : Descent → Prop
  | .into node' i c' => ∃ K₁ K₂ D₁ D₂ P x S,
      Live t node' false (K₁ ++ K₂) (D₁ ++ some c' :: D₂) ∧ i = D₁.length ∧
      D₁.length = K₁.length ∧ Front (Child t h) D₁ K₁ P ∧ Holds t h c' x ∧
      Back (Child t h) K₂ D₂ S ∧ l = P ++ (x ++ S) ∧ t.kMinNum < c'.keyNum ∧
      node.keyNum ≤ node'.keyNum + 1 ∧ 0 < node'.keyNum ∧
      ∀ key r, RightOf key c r → RightOf key c' r
  | .fromRoot c' => node.keyNum = 1 ∧ Holds t h c' l ∧ t.kMinNum < c'.keyNum ∧
      ∀ key r, RightOf key c r → RightOf key c' r

/-- The child a descent goes on in. -/
def Descent.target : Descent → BtreeNode
  | .into _ _ child => child
  | .fromRoot child => child

/-- **The live cells of `c` are among those of `c'`**, in one piece. -/
def Widens (t : Btree) (c c' : BtreeNode) : Prop :=
  ∃ lf K D A A' B B', Live t c lf K D ∧ Live t c' lf (A ++ (K ++ B)) (A' ++ (D ++ B')) ∧
    A.length = A'.length

/-- How a descent past a child `c` is opened: where it goes on, with all of `c`, and that the
root is replaced only by the child its own two are merged to. -/
structure Opens (t : Btree) (h : ℕ) (node c : BtreeNode) (l : List ℤ) (d : Descent) : Prop where
  descends : Descends t h node c l d
  widens : Widens t c d.target
  merged : ∀ c', d = .fromRoot c' → ∃ n, mergeInto node n = .ok (.fromRoot c')

section

variable {t : Btree} {node c s : BtreeNode} {h : ℕ} {k k' : ℤ} {K₁ K₂ P S x y : List ℤ}
  {D₁ D₂ : List (Option BtreeNode)}

theorem Holds.exists_live (hc : Holds t h c x) : ∃ lf K D, Live t c lf K D := by
  cases h with
  | zero =>
    obtain ⟨D, hl⟩ := hc
    exact ⟨true, x, D, hl⟩
  | succ h =>
    obtain ⟨K, D, hl, -⟩ := hc
    exact ⟨false, K, D, hl⟩

/-- Two neighbours of one height, with their live cells: the key between them joins their
sequences. -/
theorem Holds.join (hc : Holds t h c x) (hs : Holds t h s y) :
    ∃ lf Ka Da Kb Db, Live t c lf Ka Da ∧ Live t s lf Kb Db ∧ ∀ k c',
      Live t c' lf (Ka ++ k :: Kb) (Da ++ Db) → Holds t h c' (x ++ k :: y) := by
  cases h with
  | zero =>
    obtain ⟨Da, ha⟩ := hc
    obtain ⟨Db, hb⟩ := hs
    exact ⟨true, x, Da, y, Db, ha, hb, fun k c' hc' => ⟨_, hc'⟩⟩
  | succ h =>
    obtain ⟨Ka, Da, ha, hwa⟩ := hc
    obtain ⟨Kb, Db, hb, hwb⟩ := hs
    exact ⟨false, Ka, Da, Kb, Db, ha, hb, fun k c' hc' =>
      ⟨_, _, hc', (weave_append (ha.count)).mpr ⟨x, y, hwa, hwb, rfl⟩⟩⟩

/-- The first key of the right one of two neighbours goes to the left one. -/
theorem Holds.giveLeft (hc : Holds t h c x) (hs : Holds t h s y) (hpos : 0 < s.keyNum) :
    ∃ lf Ka Da k' Kb d Db y₀ y₁, Live t c lf Ka Da ∧ Live t s lf (k' :: Kb) (d :: Db) ∧
      y = y₀ ++ k' :: y₁ ∧ ∀ k c' s', Live t c' lf (Ka ++ [k]) (Da ++ [d]) →
      Live t s' lf Kb Db → Holds t h c' (x ++ k :: y₀) ∧ Holds t h s' y₁ := by
  have hcells : ∀ {lf : Bool} {Kb : List ℤ} {Db : List (Option BtreeNode)}, Live t s lf Kb Db →
      ∃ k' K d D, Kb = k' :: K ∧ Db = d :: D := by
    intro lf Kb Db hl
    obtain ⟨k', K, rfl⟩ := List.exists_cons_of_length_pos (hl.keyNum ▸ hpos)
    obtain ⟨d, D, rfl⟩ := List.exists_cons_of_length_eq_add_one hl.count
    exact ⟨k', K, d, D, rfl, rfl⟩
  cases h with
  | zero =>
    obtain ⟨Da, ha⟩ := hc
    obtain ⟨Db, hb⟩ := hs
    obtain ⟨k', K, d, D, rfl, rfl⟩ := hcells hb
    exact ⟨true, x, Da, k', K, d, D, [], K, ha, hb, rfl,
      fun k c' s' hc' hs' => ⟨⟨_, hc'⟩, ⟨_, hs'⟩⟩⟩
  | succ h =>
    obtain ⟨Ka, Da, ha, hwa⟩ := hc
    obtain ⟨Kb, Db, hb, hwb⟩ := hs
    obtain ⟨k', K, d, D, rfl, rfl⟩ := hcells hb
    obtain ⟨y₀, y₁, hd, hw, rfl⟩ := weave_cons.mp hwb
    exact ⟨false, Ka, Da, k', K, d, D, y₀, y₁, ha, hb, rfl, fun k c' s' hc' hs' =>
      ⟨⟨_, _, hc', (weave_append ha.count).mpr ⟨x, y₀, hwa, weave_single.mpr hd, rfl⟩⟩,
        ⟨_, _, hs', hw⟩⟩⟩

/-- The last key of the left one of two neighbours goes to the right one. -/
theorem Holds.giveRight (hs : Holds t h s y) (hc : Holds t h c x) (hpos : 0 < s.keyNum) :
    ∃ lf Ka Da k' Kb d Db y₀ y₁, Live t s lf (Ka ++ [k']) (Da ++ [d]) ∧ Live t c lf Kb Db ∧
      y = y₀ ++ k' :: y₁ ∧ ∀ k s' c', Live t s' lf Ka Da →
      Live t c' lf (k :: Kb) (d :: Db) → Holds t h s' y₀ ∧ Holds t h c' (y₁ ++ k :: x) := by
  have hcells : ∀ {lf : Bool} {Ka : List ℤ} {Da : List (Option BtreeNode)}, Live t s lf Ka Da →
      ∃ K k' D d, Ka = K ++ [k'] ∧ Da = D ++ [d] ∧ D.length = K.length + 1 := by
    intro lf Ka Da hl
    have hlen : 0 < Ka.length := hl.keyNum ▸ hpos
    have hcount := hl.count
    obtain ⟨K, k', rfl⟩ := exists_last hlen
    obtain ⟨D, d, rfl⟩ := exists_last (show 0 < Da.length by omega)
    exact ⟨K, k', D, d, rfl, rfl, by simpa using hcount⟩
  cases h with
  | zero =>
    obtain ⟨Da, ha⟩ := hs
    obtain ⟨Db, hb⟩ := hc
    obtain ⟨K, k', D, d, rfl, rfl, -⟩ := hcells ha
    exact ⟨true, K, D, k', x, d, Db, K, [], ha, hb, rfl,
      fun k s' c' hs' hc' => ⟨⟨_, hs'⟩, ⟨_, hc'⟩⟩⟩
  | succ h =>
    obtain ⟨Ka, Da, ha, hwa⟩ := hs
    obtain ⟨Kb, Db, hb, hwb⟩ := hc
    obtain ⟨K, k', D, d, rfl, rfl, hlen⟩ := hcells ha
    obtain ⟨y₀, y₁, hw, hd, rfl⟩ := (weave_append hlen).mp hwa
    exact ⟨false, K, D, k', Kb, d, Db, y₀, y₁, ha, hb, rfl, fun k s' c' hs' hc' =>
      ⟨⟨_, _, hs', hw⟩, ⟨_, _, hc', weave_cons.mpr ⟨y₁, x, weave_single.mp hd, hwb, rfl⟩⟩⟩⟩

/-- **Borrowing from the right.** -/
theorem borrowRight_descends (ht : Params t)
    (hl : Live t node false (K₁ ++ k :: K₂) (D₁ ++ some c :: some s :: D₂))
    (hD : D₁.length = K₁.length) (hP : Front (Child t h) D₁ K₁ P) (hc : Holds t h c x)
    (hs : Holds t h s y) (hS : Back (Child t h) K₂ D₂ S) (hmin : t.kMinNum ≤ c.keyNum)
    (hle : c.keyNum ≤ t.kMinNum) (hgive : t.kMinNum < s.keyNum) :
    ∃ node' c', borrowRight node c s K₁.length = .ok (node', c') ∧
      Opens t h node c (P ++ (x ++ k :: (y ++ S))) (.into node' K₁.length c') := by
  have hmax := ht.max
  obtain ⟨lf, Ka, Da, k', Kb, d, Db, y₀, y₁, ha, hb, rfl, hmk⟩ := hc.giveLeft hs (by omega)
  obtain ⟨node', c', s', hstep, hl', hc', hs'⟩ :=
    borrowRight_spec ht hl rfl hD ha (by rw [← ha.keyNum]; omega) hb
  obtain ⟨hcx, hsy⟩ := hmk k c' s' hc' hs'
  have hs'num : s.keyNum = s'.keyNum + 1 := hs'.keyNum_add hb (by simp)
  have hc'num : c'.keyNum = c.keyNum + 1 := ha.keyNum_add hc' (by simp)
  have hnum : node'.keyNum = node.keyNum := hl.keyNum_add hl' (n := 0) (by simp)
  refine ⟨node', c', hstep, ⟨K₁, k' :: K₂, D₁, some s' :: D₂, P, x ++ k :: y₀, k' :: (y₁ ++ S),
    hl', hD.symm, hD, hP, hcx, hS.cons (child_some.mpr ⟨by omega, hsy⟩), by simp, by omega,
    by omega, ?_, fun key r hr => hr.extend [] [] ha hc' rfl⟩,
    ⟨lf, Ka, Da, [], [], [k], [d], ha, hc', rfl⟩, fun c' he => by simp at he⟩
  rw [hl'.keyNum, List.length_append, List.length_cons]
  omega

/-- **Borrowing from the left.** -/
theorem borrowLeft_descends (ht : Params t)
    (hl : Live t node false (K₁ ++ k :: K₂) (D₁ ++ some s :: some c :: D₂))
    (hD : D₁.length = K₁.length) (hP : Front (Child t h) D₁ K₁ P) (hs : Holds t h s y)
    (hc : Holds t h c x) (hS : Back (Child t h) K₂ D₂ S) (hmin : t.kMinNum ≤ c.keyNum)
    (hle : c.keyNum ≤ t.kMinNum) (hgive : t.kMinNum < s.keyNum) :
    ∃ node' c', borrowLeft node c s (K₁.length + 1) = .ok (node', c') ∧
      Opens t h node c (P ++ (y ++ k :: (x ++ S))) (.into node' (K₁.length + 1) c') := by
  have hmax := ht.max
  obtain ⟨lf, Ka, Da, k', Kb, d, Db, y₀, y₁, ha, hb, rfl, hmk⟩ := hs.giveRight hc (by omega)
  obtain ⟨node', c', s', hstep, hl', hc', hs'⟩ :=
    borrowLeft_spec ht hl rfl hD hb (by rw [← hb.keyNum]; omega) ha
  obtain ⟨hsy, hcx⟩ := hmk k s' c' hs' hc'
  have hs'num : s.keyNum = s'.keyNum + 1 := hs'.keyNum_add ha (by simp)
  have hc'num : c'.keyNum = c.keyNum + 1 := hb.keyNum_add hc' (by simp)
  have hnum : node'.keyNum = node.keyNum := hl.keyNum_add hl' (n := 0) (by simp)
  have hext : Live t c' lf ([k] ++ (Kb ++ [])) ([d] ++ (Db ++ [])) := by simpa using hc'
  refine ⟨node', c', hstep, ⟨K₁ ++ [k'], K₂, D₁ ++ [some s'], D₂, P ++ (y₀ ++ [k']),
    y₁ ++ k :: x, S, by simpa using hl', by simp [hD], by simp [hD],
    hP.snoc (child_some.mpr ⟨by omega, hsy⟩), hcx, hS, by simp, by omega, by omega, ?_,
    fun key r hr => hr.extend [k] [d] hb hext rfl⟩, ⟨lf, Kb, Db, [k], [d], [], [], hb, hext, rfl⟩,
    fun c' he => by simp at he⟩
  rw [hl'.keyNum, List.length_append, List.length_cons]
  omega

/-- **Merging** two neighbours with the smallest number of keys, on the way to either. -/
theorem mergeInto_descends (ht : Params t)
    (hl : Live t node false (K₁ ++ k :: K₂) (D₁ ++ some c :: some s :: D₂))
    (hD : D₁.length = K₁.length) (hP : Front (Child t h) D₁ K₁ P) (hc : Holds t h c x)
    (hs : Holds t h s y) (hS : Back (Child t h) K₂ D₂ S) (hcmin : c.keyNum = t.kMinNum)
    (hsmin : s.keyNum = t.kMinNum) :
    ∃ d, mergeInto node K₁.length = .ok d ∧
      ∀ a, a = c ∨ a = s → Opens t h node a (P ++ (x ++ k :: (y ++ S))) d := by
  have hmax := ht.max
  have hpos := ht.min_pos
  obtain ⟨lf, Ka, Da, Kb, Db, ha, hb, hmk⟩ := hc.join hs
  have hKa : Ka.length = t.kMinNum := ha.keyNum ▸ hcmin
  have hKb : Kb.length = t.kMinNum := hb.keyNum ▸ hsmin
  obtain ⟨c', hc', hstep⟩ := mergeChildren_spec ht hl rfl hD ha hb (by omega)
  have hcx : Holds t h c' (x ++ k :: y) := hmk k c' hc'
  have hgive : t.kMinNum < c'.keyNum := by
    rw [hc'.keyNum, List.length_append, List.length_cons]
    omega
  -- both children are part of the merged one, so the paths into them lead into it
  have hext : Live t c' lf ((Ka ++ [k]) ++ (Kb ++ [])) (Da ++ (Db ++ [])) := by simpa using hc'
  have hlen : (Ka ++ [k]).length = Da.length := by
    rw [ha.count, List.length_append, List.length_singleton]
  have hwide : ∀ a, a = c ∨ a = s → Widens t a c' := by
    rintro a (rfl | rfl)
    · exact ⟨lf, Ka, Da, [], [], k :: Kb, Db, ha, hc', rfl⟩
    · exact ⟨lf, Kb, Db, Ka ++ [k], Da, [], [], hb, hext, hlen⟩
  have hright : ∀ a, a = c ∨ a = s → ∀ key r, RightOf key a r → RightOf key c' r := by
    rintro a (rfl | rfl) key r hr
    · exact hr.extend [] [] ha hc' rfl
    · exact hr.extend (Ka ++ [k]) Da hb hext hlen
  have hnum : node.keyNum = (K₁ ++ K₂).length + 1 := by
    rw [hl.keyNum]
    simp only [List.length_append, List.length_cons]
    omega
  rcases hstep with ⟨hnil, hstep⟩ | ⟨hne, p', hstep, hp'⟩
  · obtain ⟨rfl, rfl⟩ := List.append_eq_nil_iff.mp hnil
    obtain ⟨-, rfl⟩ := front_nil.mp hP
    obtain ⟨-, rfl⟩ := back_nil.mp hS
    have hinto : mergeInto node ([] : List ℤ).length = .ok (.fromRoot c') := by
      rw [mergeInto, hstep]
      rfl
    refine ⟨.fromRoot c', hinto, fun a hac => ⟨⟨hnum, ?_, hgive, hright a hac⟩, hwide a hac,
      fun _ he => ⟨_, he ▸ hinto⟩⟩⟩
    simpa using hcx
  · refine ⟨.into p' K₁.length c', by rw [mergeInto, hstep]; rfl, fun a hac =>
      ⟨⟨K₁, K₂, D₁, D₂, P, x ++ k :: y, S, hp', hD.symm, hD, hP, hcx, hS, by simp, hgive, ?_, ?_,
        hright a hac⟩, hwide a hac, fun c' he => by simp at he⟩⟩
    · rw [hp'.keyNum]
      omega
    · rw [hp'.keyNum]
      exact List.length_pos_iff.mpr hne

end

/-- **What a sibling allows** a descent to the child `i` to do: to take a key from it with
`borrow`, or else to merge the children `n` and `n + 1`, if the descent merges them. -/
def Helps (t : Btree) (node : BtreeNode) (i j n : ℕ) (merges : Prop)
    (borrow : BtreeNode → Except Fault (BtreeNode × BtreeNode)) (Q : Descent → Prop) : Prop :=
  ∃ s, get Fault.outOfRange node.children j = .ok (some s) ∧
    ((s.keyNum > t.kMinNum ∧ ∃ node' c', borrow s = .ok (node', c') ∧ Q (.into node' i c')) ∨
      (¬s.keyNum > t.kMinNum ∧ (merges → ∃ d, mergeInto node n = .ok d ∧ Q d)))

section

variable {t : Btree} {node c : BtreeNode} {h : ℕ} {K₁ K₂ P S x : List ℤ}
  {D₁ D₂ : List (Option BtreeNode)}

/-- **Refilling a child** with the help of its siblings. -/
theorem refill_of_helps {Q : Descent → Prop} (hnum : node.keyNum = (K₁ ++ K₂).length)
    (hpos : 0 < node.keyNum)
    (hright : K₂ ≠ [] →
      Helps t node K₁.length (K₁.length + 1) K₁.length True (borrowRight node c · K₁.length) Q)
    (hleft : K₁ ≠ [] →
      Helps t node K₁.length (K₁.length - 1) (K₁.length - 1) (K₂ = [])
        (borrowLeft node c · K₁.length) Q) :
    ∃ d, refill t node c K₁.length = .ok d ∧ Q d := by
  rw [List.length_append] at hnum
  -- the last child has a left sibling only, the first a right one, and any other has both
  by_cases hK₂ : K₂ = []
  · have hno : ¬K₁.length + 1 ≤ node.keyNum := by
      rw [hnum, hK₂]
      simp
    have hK₁ : K₁ ≠ [] := by
      rintro rfl
      rw [hK₂] at hnum
      exact absurd hnum hpos.ne'
    have hyes : K₁.length ≥ 1 := List.length_pos_iff.mpr hK₁
    obtain ⟨s, hget, hs⟩ := hleft hK₁
    beta_reduce at hs
    simp only [refill, hyes, if_true, hget, hno, if_false, ok_bind]
    rcases hs with ⟨hgive, node', c', hstep, hd⟩ | ⟨hgive, hmerge⟩
    · exact ⟨_, by rw [if_pos hgive, hstep]; rfl, hd⟩
    · obtain ⟨d, hstep, hd⟩ := hmerge hK₂
      exact ⟨d, by rw [if_neg hgive, hstep], hd⟩
  · obtain ⟨s, hget, hs⟩ := hright hK₂
    beta_reduce at hs
    have hyes : K₁.length + 1 ≤ node.keyNum := by
      have := List.length_pos_iff.mpr hK₂
      omega
    by_cases hK₁ : K₁ = []
    · have hno : ¬K₁.length ≥ 1 := by simp [hK₁]
      simp only [refill, hno, if_false, hyes, if_true, hget, ok_bind]
      rcases hs with ⟨hgive, node', c', hstep, hd⟩ | ⟨hgive, hmerge⟩
      · exact ⟨_, by rw [if_pos hgive, hstep]; rfl, hd⟩
      · obtain ⟨d, hstep, hd⟩ := hmerge trivial
        exact ⟨d, by rw [if_neg hgive, hstep], hd⟩
    · have hyes' : K₁.length ≥ 1 := List.length_pos_iff.mpr hK₁
      obtain ⟨s', hget', hs'⟩ := hleft hK₁
      beta_reduce at hs'
      simp only [refill, hyes', if_true, hget', hyes, hget, ok_bind]
      rcases hs with ⟨hgive, node', c', hstep, hd⟩ | ⟨hgive, hmerge⟩
      · exact ⟨_, by rw [if_pos hgive, hstep]; rfl, hd⟩
      · obtain ⟨d, hstep, hd⟩ := hmerge trivial
        -- the right sibling is too short: the left one gives a key, or the merge is with the right
        -- one
        rw [if_neg hgive]
        rcases hs' with ⟨hgive', node', c', hstep', hd'⟩ | ⟨hgive', -⟩
        · exact ⟨_, by rw [if_pos hgive', hstep']; rfl, hd'⟩
        · exact ⟨d, by rw [if_neg hgive', hstep], hd⟩

/-- What the right sibling of a child with the smallest number of keys allows. -/
theorem helps_right {k : ℤ} (ht : Params t)
    (hl : Live t node false (K₁ ++ k :: K₂) (D₁ ++ some c :: D₂)) (hD : D₁.length = K₁.length)
    (hP : Front (Child t h) D₁ K₁ P) (hc : Holds t h c x) (hS : Back (Child t h) (k :: K₂) D₂ S)
    (hmin : c.keyNum = t.kMinNum) :
    Helps t node K₁.length (K₁.length + 1) K₁.length True (borrowRight node c · K₁.length)
      (Opens t h node c (P ++ (x ++ S))) := by
  obtain ⟨d, D, rfl⟩ := List.exists_cons_of_length_eq_add_one hS.length_eq.symm
  obtain ⟨y, S', ⟨s, rfl, hsmin, hs⟩, hS', rfl⟩ := back_cons.mp hS
  have hl' : Live t node false (K₁ ++ k :: K₂) ((D₁ ++ [some c]) ++ some s :: D) := by
    simpa using hl
  refine ⟨s, hl'.get_child (by simp [hD]), ?_⟩
  by_cases hgive : s.keyNum > t.kMinNum
  · exact Or.inl ⟨hgive, borrowRight_descends ht hl hD hP hc hs hS' hmin.ge hmin.le hgive⟩
  · obtain ⟨d, hstep, hd⟩ := mergeInto_descends ht hl hD hP hc hs hS' hmin (by omega)
    exact Or.inr ⟨hgive, fun _ => ⟨d, hstep, hd c (Or.inl rfl)⟩⟩

/-- What its left sibling allows. -/
theorem helps_left {k : ℤ} (ht : Params t)
    (hl : Live t node false (K₁ ++ k :: K₂) (D₁ ++ some c :: D₂)) (hD : D₁.length = K₁.length + 1)
    (hP : Front (Child t h) D₁ (K₁ ++ [k]) P) (hc : Holds t h c x)
    (hS : Back (Child t h) K₂ D₂ S) (hmin : c.keyNum = t.kMinNum) :
    Helps t node (K₁.length + 1) K₁.length K₁.length (K₂ = []) (borrowLeft node c · (K₁.length + 1))
      (Opens t h node c (P ++ (x ++ S))) := by
  rcases List.eq_nil_or_concat D₁ with rfl | ⟨D, d, rfl⟩
  · simp at hD
  rw [List.concat_eq_append] at hl hP hD
  obtain ⟨P', y, hP', ⟨s, rfl, hsmin, hs⟩, rfl⟩ := front_snoc.mp hP
  have hl' : Live t node false (K₁ ++ k :: K₂) (D ++ some s :: some c :: D₂) := by
    simpa using hl
  have hDK : D.length = K₁.length := by simpa using hD
  have hseq : P' ++ (y ++ [k]) ++ (x ++ S) = P' ++ (y ++ k :: (x ++ S)) := by simp
  refine ⟨s, hl'.get_child hDK.symm, ?_⟩
  rw [hseq]
  by_cases hgive : s.keyNum > t.kMinNum
  · exact Or.inl ⟨hgive, borrowLeft_descends ht hl' hDK hP' hs hc hS hmin.ge hmin.le hgive⟩
  · obtain ⟨d, hstep, hd⟩ := mergeInto_descends ht hl' hDK hP' hs hc hS (by omega) hmin
    exact Or.inr ⟨hgive, fun _ => ⟨d, hstep, hd c (Or.inr rfl)⟩⟩

/-- **Refilling a child** with the smallest number of keys. -/
theorem refill_spec (ht : Params t) (hl : Live t node false (K₁ ++ K₂) (D₁ ++ some c :: D₂))
    (hD : D₁.length = K₁.length) (hP : Front (Child t h) D₁ K₁ P) (hc : Holds t h c x)
    (hS : Back (Child t h) K₂ D₂ S) (hmin : c.keyNum = t.kMinNum) (hne : 0 < node.keyNum) :
    ∃ d, refill t node c K₁.length = .ok d ∧ Opens t h node c (P ++ (x ++ S)) d := by
  refine refill_of_helps hl.keyNum hne (fun hK₂ => ?_) fun hK₁ => ?_
  · obtain ⟨k, K₂, rfl⟩ := List.exists_cons_of_ne_nil hK₂
    exact helps_right ht hl hD hP hc hS hmin
  · obtain ⟨K, k, rfl⟩ := (List.eq_nil_or_concat K₁).resolve_left hK₁
    rw [List.concat_eq_append] at *
    have hl' : Live t node false (K ++ k :: K₂) (D₁ ++ some c :: D₂) := by simpa using hl
    have hlen : (K ++ [k]).length = K.length + 1 := by simp
    rw [hlen, Nat.add_sub_cancel]
    exact helps_left ht hl' (hD.trans hlen) hP hc hS hmin

/-- **Opening a descent** at a child, which is refilled if it has only the smallest number of
keys. -/
theorem open_spec (ht : Params t) (hl : Live t node false (K₁ ++ K₂) (D₁ ++ some c :: D₂))
    (hD : D₁.length = K₁.length) (hP : Front (Child t h) D₁ K₁ P) (hc : Child t h (some c) x)
    (hS : Back (Child t h) K₂ D₂ S) (hne : 0 < node.keyNum) :
    ∃ d, (if c.keyNum ≤ t.kMinNum then refill t node c K₁.length
      else .ok (.into node K₁.length c)) = .ok d ∧ Opens t h node c (P ++ (x ++ S)) d := by
  obtain ⟨hmin, hcx⟩ := child_some.mp hc
  by_cases hle : c.keyNum ≤ t.kMinNum
  · rw [if_pos hle]
    exact refill_spec ht hl hD hP hcx hS (by omega) hne
  · obtain ⟨lf, K, D, hlc⟩ := hcx.exists_live
    have hext : Live t c lf ([] ++ (K ++ [])) ([] ++ (D ++ [])) := by simpa using hlc
    rw [if_neg hle]
    exact ⟨_, rfl, ⟨K₁, K₂, D₁, D₂, P, x, S, hl, hD.symm, hD, hP, hcx, hS, rfl, by omega, by omega,
      hne, fun _ _ hr => hr⟩, ⟨lf, K, D, [], [], [], [], hlc, hext, rfl⟩, fun _ he => by simp at he⟩

end

/-! ### A key of an internal node -/

/-- **A node with no sorted subtree**: some node at or below it has too few keys, or the
keys are out of order. -/
def Broken (t : Btree) (node : BtreeNode) : Prop :=
  ∀ h l, Holds t h node l → ¬l.Pairwise (· < ·)

/-- What the deletion of the first key of a node leaves. A leaf loses the key. In an
internal node the first child stays, and with it some key that stood before the first. -/
def DropsFirst (t : Btree) (h : ℕ) (node node' : BtreeNode) (k₀ : ℤ) (l : List ℤ) : Prop :=
  (node.isLeaf = true ∧ node'.keyNum + 1 = node.keyNum ∧
    ∃ ks, l = k₀ :: ks ∧ Holds t h node' ks) ∨
  (node.isLeaf = false ∧ ∃ x a y, l = x ++ k₀ :: y ∧ a ∈ x ∧
    ∀ h' l', Holds t h' node' l' → a ∈ l')

section

variable {t : Btree} {node node' c r r' : BtreeNode} {h fuel : ℕ} {key k₀ : ℤ}
  {l K₁ K₂ P S x y : List ℤ} {D₁ D₂ : List (Option BtreeNode)}

theorem Holds.exists_mem (hn : Holds t h node l) (hpos : 0 < node.keyNum) : ∃ a, a ∈ l := by
  cases h with
  | zero =>
    obtain ⟨ds, hl⟩ := hn
    exact List.exists_mem_of_length_pos (hl.keyNum ▸ hpos)
  | succ h =>
    obtain ⟨ks, ds, hl, hw⟩ := hn
    obtain ⟨a, ha⟩ := List.exists_mem_of_length_pos (hl.keyNum ▸ hpos)
    exact ⟨a, hw.mem ha⟩

/-- What a child of a node holds is part of what the node holds. -/
theorem Holds.infix {h' : ℕ} {l' : List ℤ} (hn : Holds t h' node l')
    (hl : Live t node false (K₁ ++ K₂) (D₁ ++ some c :: D₂)) (hD : D₁.length = K₁.length) :
    ∃ h P x S, Holds t h c x ∧ l' = P ++ (x ++ S) ∧ (∀ k K, K₁ = K ++ [k] → k ∈ P) := by
  cases h' with
  | zero =>
    obtain ⟨ds, hl'⟩ := hn
    exact absurd (hl.unique hl').1 (by simp)
  | succ h =>
    obtain ⟨ks, ds, hl', hw⟩ := hn
    obtain ⟨-, rfl, rfl⟩ := hl.unique hl'
    obtain ⟨P, x, S, hP, hc, -, rfl⟩ := (weave_focus hD).mp hw
    refine ⟨h, P, x, S, (child_some.mp hc).2, rfl, ?_⟩
    rintro k K rfl
    exact hP.mem (by simp)

theorem Broken.above (hc : Broken t c) (hl : Live t node false (K₁ ++ K₂) (D₁ ++ some c :: D₂))
    (hD : D₁.length = K₁.length) : Broken t node := by
  intro h' l' hn hs
  obtain ⟨h, P, x, S, hx, rfl, -⟩ := hn.infix hl hD
  exact hc h x hx (List.pairwise_append.mp (List.pairwise_append.mp hs).2.1).1

theorem Live.finds_key {lf : Bool} {ds : List (Option BtreeNode)}
    (hl : Live t node lf (K₁ ++ key :: K₂) ds) (hK₁ : ∀ a ∈ K₁, a < key) :
    ¬node.keyNum = 0 ∧ K₁.length < node.keyNum ∧
      findKey key node.keys 0 node.keyNum = .ok K₁.length ∧
      get Fault.outOfRange node.keys K₁.length = .ok key := by
  have hnum := hl.keyNum
  simp only [List.length_append, List.length_cons] at hnum
  refine ⟨by omega, by omega, hl.findKey_eq hK₁ fun b hb => ?_, hl.get_key rfl⟩
  obtain rfl : key = b := by simpa using hb
  exact le_rfl

/-- The step at the internal node of the key: the key is replaced by the first key of the
child to its right. -/
theorem Live.deleteKey_inner
    (hl : Live t node false (K₁ ++ key :: K₂) (D₁ ++ some r :: D₂))
    (hD : D₁.length = K₁.length + 1) (hK₁ : ∀ a ∈ K₁, a < key) (hmin : t.kMinNum ≤ r.keyNum)
    (hget : get Fault.outOfRange r.keys 0 = .ok k₀)
    (hrec : deleteKey t fuel r k₀ = .ok (.kept r')) :
    ∃ node', deleteKey t (fuel + 1) node key = .ok (.kept node') ∧ node'.keyNum = node.keyNum ∧
      Live t node' false (K₁ ++ k₀ :: K₂) (D₁ ++ some r' :: D₂) := by
  obtain ⟨hne, hlt, hfind, hkey⟩ := hl.finds_key hK₁
  have hchild : BTree.childAt node (K₁.length + 1) = .ok r := hl.childAt hD.symm
  obtain ⟨keys, hput, hl₁⟩ := hl.put_key rfl k₀
  refine ⟨({ node with keys := keys } : BtreeNode).setChild (K₁.length + 1) r', ?_, rfl,
    hl₁.setChild hD.symm r'⟩
  simp only [deleteKey, hne, if_false, hfind, ok_bind, hlt, if_true, hkey, beq_self_eq_true,
    hl.isLeaf, Bool.false_eq_true, hchild, ge_iff_le, hmin, hget, hput, hrec]
  rfl

theorem Live.deleteKey_leaf (fuel : ℕ) (hl : Live t node true (K₁ ++ key :: K₂) D₁)
    (hK₁ : ∀ a ∈ K₁, a < key) :
    ∃ node' D, deleteKey t (fuel + 1) node key = .ok (.kept node') ∧
      node'.keyNum + 1 = node.keyNum ∧ Live t node' true (K₁ ++ K₂) D := by
  obtain ⟨hne, hlt, hfind, hkey⟩ := hl.finds_key hK₁
  obtain ⟨keys, ds', hloop, hl'⟩ := hl.remove rfl
  refine ⟨_, ds', ?_, ?_, hl'⟩
  · simp only [deleteKey, hne, if_false, hfind, ok_bind, hlt, if_true, hkey, beq_self_eq_true,
      hl.isLeaf, hloop]
  · change node.keyNum - 1 + 1 = node.keyNum
    omega

/-- **The deletion of the first key** of a node goes down along the second children. -/
theorem deleteKey_first (ht : Params t) (hn : Holds t h node l) (hpos : 0 < node.keyNum)
    (hfuel : h < fuel) : ∃ k₀ node', get Fault.outOfRange node.keys 0 = .ok k₀ ∧
      deleteKey t fuel node k₀ = .ok (.kept node') ∧ DropsFirst t h node node' k₀ l := by
  have hmin := ht.min_pos
  induction h generalizing node l fuel with
  | zero =>
    obtain ⟨fuel, rfl⟩ : ∃ f, fuel = f + 1 := ⟨fuel - 1, by omega⟩
    obtain ⟨ds, hl⟩ := hn
    obtain ⟨k₀, ks, rfl⟩ := List.exists_cons_of_length_pos (hl.keyNum ▸ hpos)
    have hl₀ : Live t node true ([] ++ k₀ :: ks) ds := hl
    obtain ⟨node', ds', hstep, hnum, hl'⟩ := hl₀.deleteKey_leaf fuel (by simp)
    exact ⟨k₀, node', hl.get_head, hstep, Or.inl ⟨hl.isLeaf, hnum, ks, rfl, ds', hl'⟩⟩
  | succ h ih =>
    obtain ⟨fuel, rfl⟩ : ∃ f, fuel = f + 1 := ⟨fuel - 1, by omega⟩
    obtain ⟨ks, ds, hl, hw⟩ := hn
    obtain ⟨k₀, ks, rfl⟩ := List.exists_cons_of_length_pos (hl.keyNum ▸ hpos)
    obtain ⟨d, ds, rfl⟩ := List.exists_cons_of_length_eq_add_one hl.count
    obtain ⟨x, y, ⟨c, rfl, hcmin, hc⟩, hy, rfl⟩ := weave_cons.mp hw
    obtain ⟨e, ds, z, S, rfl, ⟨r, rfl, hrmin, hr⟩, -, rfl⟩ := hy
    have hfuel' : h < fuel := by omega
    obtain ⟨k₁, r', hget, hrec, -⟩ := ih hr (by omega) hfuel'
    have hl₁ : Live t node false ([] ++ k₀ :: ks) ([some c] ++ some r :: ds) := hl
    obtain ⟨node', hstep, -, hl'⟩ := hl₁.deleteKey_inner rfl (by simp) hrmin hget hrec
    -- a key of the first child
    obtain ⟨a, ha⟩ := hc.exists_mem (hmin.trans hcmin)
    refine ⟨k₀, node', hl.get_head, hstep, Or.inr ⟨hl.isLeaf, x, a, _, rfl, ha, ?_⟩⟩
    intro h' l' hn'
    have hl₂ : Live t node' false ([] ++ k₁ :: ks) ([] ++ some c :: some r' :: ds) := hl'
    obtain ⟨h'', P, x', S', hc', rfl, -⟩ := hn'.infix hl₂ rfl
    rw [← (hc.unique hc').2]
    simp [ha]

/-- **The key is replaced** by the first key of the child to its right, which is deleted
there. The result is the sequence without the key when the child is a leaf with a key to
give, and no valid subtree otherwise. -/
theorem Holds.replaceKey (ht : Params t) (hn : Holds t (h + 1) node l) (hs : l.Pairwise (· < ·))
    (hl : Live t node false (K₁ ++ key :: K₂) (D₁ ++ some r :: D₂)) (hD : D₁.length = K₁.length + 1)
    (hfuel : h < fuel) : ∃ node', deleteKey t (fuel + 1) node key = .ok (.kept node') ∧
      node'.keyNum = node.keyNum ∧
      (r.isLeaf = true ∧ t.kMinNum < r.keyNum →
        ∃ A B, l = A ++ key :: B ∧ Holds t (h + 1) node' (A ++ B)) ∧
      (¬(r.isLeaf = true ∧ t.kMinNum < r.keyNum) → Broken t node') := by
  have hmin := ht.min_pos
  obtain ⟨ks, ds, hl', hw⟩ := hn
  obtain ⟨-, rfl, rfl⟩ := hl.unique hl'
  have hK₁ : ∀ a ∈ K₁, a < key := by
    intro a ha
    exact (List.pairwise_append.mp (hs.sublist hw.sublist)).2.2 a ha key (by simp)
  obtain ⟨x, y, hx, ⟨d, D, z, S, he, ⟨c, rfl, hrmin, hr⟩, hS, rfl⟩, rfl⟩ :=
    (weave_append hD).mp hw
  obtain ⟨he₁, rfl⟩ := List.cons.inj he
  obtain rfl := Option.some.inj he₁
  obtain ⟨k₀, r', hget, hrec, hdrop⟩ := deleteKey_first ht hr (by omega) hfuel
  obtain ⟨node', hstep, hnum, hl₁⟩ := hl.deleteKey_inner hD hK₁ hrmin hget hrec
  refine ⟨node', hstep, hnum, ?_, ?_⟩
  -- the first key of the leaf behind `key` moves up in its place, and the rest stays in order
  · rintro ⟨hleaf, hgive⟩
    rcases hdrop with ⟨-, hnum', ks, rfl, hr'⟩ | ⟨hinner, -⟩
    · refine ⟨x, k₀ :: ks ++ S, by simp, _, _, hl₁, (weave_append hD).mpr
        ⟨x, ks ++ S, hx, ⟨_, _, ks, S, rfl, child_some.mpr ⟨by omega, hr'⟩, hS, rfl⟩, by simp⟩⟩
    · exact absurd (hinner.symm.trans hleaf) (by simp)
  -- whatever the new node is said to hold, it has lost the key below the new separator
  · intro hbad h' l' hn' hs'
    cases h' with
    | zero =>
      obtain ⟨ds, hl''⟩ := hn'
      exact absurd (hl₁.unique hl'').1 (by simp)
    | succ h' =>
      obtain ⟨ks, ds, hl'', hw'⟩ := hn'
      obtain ⟨-, rfl, rfl⟩ := hl₁.unique hl''
      obtain ⟨x', y', hx', ⟨d, D, z', S', he, ⟨c, rfl, hr'min, hr'⟩, hS', rfl⟩, rfl⟩ :=
        (weave_append hD).mp hw'
      obtain ⟨he₁, rfl⟩ := List.cons.inj he
      obtain rfl := Option.some.inj he₁
      rcases hdrop with ⟨hleaf, hnum', ks, rfl, -⟩ | ⟨-, u, a, v, rfl, ha, hkeep⟩
      · -- the leaf has one key too few
        exact hbad ⟨hleaf, by omega⟩
      · -- a key below the new separator stands behind it
        have hlt : a < k₀ := by
          have hz := (List.pairwise_append.mp hs).2.1
          simp only [List.append_assoc, List.cons_append, List.pairwise_cons] at hz
          exact (List.pairwise_append.mp hz.2).2.2 a ha k₀ (by simp)
        have hgt : k₀ < a := by
          have hz := (List.pairwise_cons.mp (List.pairwise_append.mp hs').2.1).1
          exact hz a (List.mem_append_left _ (hkeep _ _ hr'))
        exact lt_asymm hlt hgt

end

/-! ### The descent to the key -/

/-- **What a deletion makes of a node**, for a key of an internal node with the child `r`
to its right: the sequence without the key, or no valid subtree. -/
def Settled (t : Btree) (h : ℕ) (node' : BtreeNode) (key : ℤ) (l : List ℤ) (r : BtreeNode) : Prop :=
  (r.isLeaf = true ∧ t.kMinNum < r.keyNum →
    ∃ A B, l = A ++ key :: B ∧ Holds t h node' (A ++ B)) ∧
  (¬(r.isLeaf = true ∧ t.kMinNum < r.keyNum) → Broken t node')

/-- The outcome of a deletion at a node. Only a root with one key is replaced. -/
def Leaves (t : Btree) (h : ℕ) (node : BtreeNode) (key : ℤ) (l : List ℤ) (r : BtreeNode) :
    Outcome → Prop
  | .kept node' => node.keyNum ≤ node'.keyNum + 1 ∧ 0 < node'.keyNum ∧ Settled t h node' key l r
  | .newRoot node' => node.keyNum = 1 ∧ 0 < node'.keyNum ∧ ∃ h', Settled t h' node' key l r

/-- The rest of a deletion after a descent: what `run` does at the child, and where its
outcome goes. -/
def Descent.follow (run : BtreeNode → Except Fault Outcome) : Descent → Except Fault Outcome
  | .into node i child => run child >>= fun out => .ok (out.above node i)
  | .fromRoot child => run child >>= fun out => .ok out.moved

section

variable {t : Btree} {node c r : BtreeNode} {h fuel i : ℕ} {key : ℤ} {l K₁ K₂ P S x : List ℤ}
  {D₁ D₂ : List (Option BtreeNode)}

theorem Settled.above {c' : BtreeNode} (hx : Settled t h c' key x r)
    (hl : Live t node false (K₁ ++ K₂) (D₁ ++ some c :: D₂)) (hi : i = D₁.length)
    (hD : D₁.length = K₁.length) (hP : Front (Child t h) D₁ K₁ P) (hS : Back (Child t h) K₂ D₂ S)
    (hmin : t.kMinNum ≤ c'.keyNum) :
    Settled t (h + 1) (node.setChild i c') key (P ++ (x ++ S)) r := by
  have hl' := hl.setChild hi c'
  constructor
  · intro hgood
    obtain ⟨A, B, rfl, hc'⟩ := hx.1 hgood
    refine ⟨P ++ A, B ++ S, by simp, _, _, hl', (weave_focus hD).mpr
      ⟨P, A ++ B, S, hP, child_some.mpr ⟨hmin, hc'⟩, hS, by simp⟩⟩
  · intro hbad
    exact (hx.2 hbad).above hl' hD

/-- The key at the end of the search, when there is one, is another. -/
theorem Live.not_found {lf : Bool} {ds : List (Option BtreeNode)}
    (hl : Live t node lf (K₁ ++ K₂) ds) (hK₂ : ∀ a ∈ K₂, key < a) (a b : Except Fault Outcome) :
    (if K₁.length < node.keyNum then
      get Fault.outOfRange node.keys K₁.length >>= fun k => if (key == k) = true then a else b
      else b) = b := by
  cases K₂ with
  | nil =>
    have hlast : ¬K₁.length < node.keyNum := by simp [hl.keyNum]
    rw [if_neg hlast]
  | cons k K =>
    have hk : get Fault.outOfRange node.keys K₁.length = .ok k := hl.get_key rfl
    have hne : (key == k) = false := beq_eq_false_iff_ne.mpr (hK₂ k (by simp)).ne
    simp only [hk, ok_bind, hne, Bool.false_eq_true, if_false, ite_self]

/-- The step at an internal node that does not hold the key. -/
theorem Live.deleteKey_descend {d : Descent}
    (hl : Live t node false (K₁ ++ K₂) (D₁ ++ some c :: D₂)) (hD : D₁.length = K₁.length)
    (hpos : 0 < node.keyNum) (hK₁ : ∀ a ∈ K₁, a < key) (hK₂ : ∀ a ∈ K₂, key < a)
    (hd : (if c.keyNum ≤ t.kMinNum then refill t node c K₁.length
      else .ok (.into node K₁.length c)) = .ok d) :
    deleteKey t (fuel + 1) node key = d.follow fun child => deleteKey t fuel child key := by
  have hne : ¬node.keyNum = 0 := by omega
  have hfind : findKey key node.keys 0 node.keyNum = .ok K₁.length := by
    refine hl.findKey_eq hK₁ fun b hb => ?_
    exact (hK₂ b (List.mem_of_mem_head? hb)).le
  have hother := hl.not_found hK₂
  have hchild : get Fault.outOfRange node.children K₁.length = .ok (some c) := hl.get_child hD.symm
  rw [deleteKey]
  simp only [hne, if_false, hfind, ok_bind, Bool.false_eq_true, hchild, hother]
  split_ifs at hd ⊢
  · rw [hd, ok_bind]
    cases d <;> rfl
  · obtain rfl := Except.ok.inj hd
    rfl

/-- The child to the right of a key that the node holds. -/
theorem RightOf.found (hr : RightOf key node r) (hs : l.Pairwise (· < ·))
    (hl : Live t node false (K₁ ++ key :: K₂) (D₁ ++ D₂)) (hD : D₁.length = K₁.length + 1)
    (hw : Weave (Child t h) (D₁ ++ D₂) (K₁ ++ key :: K₂) l) : ∃ D, D₂ = some r :: D := by
  obtain ⟨x, y, hx, hy, rfl⟩ := (weave_append hD).mp hw
  obtain ⟨-, hsy, hlt⟩ := List.pairwise_append.mp hs
  rw [List.pairwise_cons] at hsy
  obtain ⟨-, ⟨i, hk, hc⟩ | ⟨i, c, hc, hrec⟩⟩ := hr.live_cases hl
  · -- the key stands at one place only
    have hi : i = K₁.length := by
      have hnodup : (K₁ ++ key :: K₂).Nodup :=
        ((hs.sublist hw.sublist).imp fun hab => hab.ne)
      have hi' : i < (K₁ ++ key :: K₂).length := (List.getElem?_eq_some_iff.mp hk).1
      refine (List.getElem?_inj hi' hnodup).mp ?_
      rw [hk]
      simp
    rw [hi, ← hD, List.getElem?_append_right le_rfl, Nat.sub_self] at hc
    cases D₂ with
    | nil => simp at hc
    | cons d D =>
      obtain rfl : d = some r := by simpa using hc
      exact ⟨D, rfl⟩
  · rcases List.mem_append.mp (List.mem_of_getElem? hc) with hm | hm
    · obtain ⟨z, hz, hsub⟩ := hx.mem_subtree hm
      exact absurd (hlt key (hsub key (hrec.mem (child_some.mp hz).2)) key (by simp))
        (lt_irrefl key)
    · obtain ⟨z, hz, hsub⟩ := hy.mem_subtree hm
      exact absurd (hsy.1 key (hsub key (hrec.mem (child_some.mp hz).2))) (lt_irrefl key)

/-- **The descent of a deletion** to a key of an internal node. -/
theorem deleteKey_spec (ht : Params t) (hn : Holds t h node l) (hs : l.Pairwise (· < ·))
    (hr : RightOf key node r) (hpos : 0 < node.keyNum) (hfuel : h < fuel) :
    ∃ out, deleteKey t fuel node key = .ok out ∧ Leaves t h node key l r out := by
  have hmin₁ := ht.min_pos
  induction h generalizing node l fuel with
  | zero =>
    obtain ⟨ds, hl⟩ := hn
    exact absurd (hr.live_cases hl).1 (by simp)
  | succ h ih =>
    obtain ⟨fuel, rfl⟩ : ∃ f, fuel = f + 1 := ⟨fuel - 1, by omega⟩
    have hfuel' : h < fuel := by omega
    have hn' := hn
    obtain ⟨ks, ds, hl, hw⟩ := hn
    by_cases hk : key ∈ ks
    · obtain ⟨K₁, K₂, rfl⟩ := List.append_of_mem hk
      have hcount := hl.count
      simp only [List.length_append, List.length_cons] at hcount
      obtain ⟨D₁, D₂, rfl, hD⟩ : ∃ D₁ D₂, ds = D₁ ++ D₂ ∧ D₁.length = K₁.length + 1 :=
        ⟨ds.take (K₁.length + 1), ds.drop (K₁.length + 1), by simp, by simp; omega⟩
      obtain ⟨D, rfl⟩ := hr.found hs hl hD hw
      obtain ⟨node', hstep, hnum, hgood, hbad⟩ := hn'.replaceKey ht hs hl hD hfuel'
      exact ⟨_, hstep, by omega, by omega, hgood, hbad⟩
    · obtain ⟨K₁, K₂, D₁, c, D₂, P, x, S, hl, hD, hP, hc, hS, rfl, hK₁, hK₂, hPk, hSk⟩ :=
        hl.focus hw hs hk
      have hrc : RightOf key c r := hr.focus hl
        (fun hm => (List.mem_append.mp hm).elim (fun h' => lt_irrefl _ (hK₁ _ h'))
          fun h' => lt_irrefl _ (hK₂ _ h')) hP hS hPk hSk
      -- the child gets a key to give
      obtain ⟨d, hd, ⟨hdesc, -, -⟩⟩ := open_spec ht hl hD hP hc hS hpos
      rw [hl.deleteKey_descend hD hpos hK₁ hK₂ hd]
      cases d with
      | into node₁ i c₁ =>
        obtain ⟨K₁, K₂, D₁, D₂, P, x, S, hl₁, hi, hD₁, hP₁, hc₁, hS₁, hseq, hgive, hnum, hpos₁,
          hright⟩ := hdesc
        have hsx : x.Pairwise (· < ·) := by
          rw [hseq] at hs
          exact (List.pairwise_append.mp (List.pairwise_append.mp hs).2.1).1
        obtain ⟨out, hstep, hout⟩ := ih hc₁ hsx (hright key r hrc) (by omega) hfuel'
        cases out with
        | newRoot node' => exact absurd hout.1 (by omega)
        | kept c₂ =>
          obtain ⟨hc₂, -, hset⟩ := hout
          refine ⟨.kept (node₁.setChild i c₂), by rw [Descent.follow, hstep]; rfl, hnum, hpos₁, ?_⟩
          rw [hseq]
          exact hset.above hl₁ hi hD₁ hP₁ hS₁ (by omega)
      | fromRoot c₁ =>
        obtain ⟨hone, hc₁, hgive, hright⟩ := hdesc
        obtain ⟨out, hstep, hout⟩ := ih hc₁ hs (hright key r hrc) (by omega) hfuel'
        cases out with
        | newRoot node' => exact absurd hout.1 (by omega)
        | kept c₂ =>
          obtain ⟨hc₂, hpos₂, hset⟩ := hout
          exact ⟨.newRoot c₂, by rw [Descent.follow, hstep]; rfl, hone, hpos₂, h, hset⟩

end

/-! ### Deletion from a tree -/

/-- **A key held by an internal node** at or below a node. -/
inductive HeldInside (key : ℤ) : BtreeNode → Prop
  /-- The node holds the key. -/
  | here {node : BtreeNode} {i : ℕ} : node.isLeaf = false → i < node.keyNum →
      node.keys[i]? = some key → HeldInside key node
  /-- A node below it does. -/
  | under {node c : BtreeNode} {i : ℕ} : node.isLeaf = false → i ≤ node.keyNum →
      node.children[i]? = some (some c) → HeldInside key c → HeldInside key node

/-- It has a child to its right. -/
theorem HeldInside.exists_rightOf {t : Btree} {node : BtreeNode} {h : ℕ} {key : ℤ} {l : List ℤ}
    (hk : HeldInside key node) (hn : Holds t h node l) : ∃ r, RightOf key node r := by
  induction hk generalizing h l with
  | @here node i hleaf hi hkey =>
    obtain ⟨h', ks, ds, hl, hw⟩ := hn.inside hleaf
    obtain ⟨crest, hds⟩ := hl.children
    have hcount := hl.count
    have hi' : i + 1 < ds.length := by rw [hl.keyNum] at hi; omega
    obtain ⟨x, ⟨r, hr, -⟩, -⟩ := hw.mem_subtree (List.getElem_mem hi')
    refine ⟨r, .here hleaf hi hkey ?_⟩
    rw [hds, List.getElem?_append_left hi', List.getElem?_eq_getElem hi', hr]
  | @under node c i hleaf hi hc _ ih =>
    obtain ⟨h', x, hx, -⟩ := hn.below hleaf hi hc
    obtain ⟨r, hr⟩ := ih hx
    exact ⟨r, .under hleaf hi hc hr⟩

section

variable {t : Btree} {node r : BtreeNode} {h : ℕ} {key : ℤ} {l : List ℤ}

/-- What a deletion makes of the root decides whether the tree is valid. -/
theorem Settled.valid_iff (hset : Settled t h node key l r) (ht : Params t)
    (hs : l.Pairwise (· < ·)) (hpos : 0 < node.keyNum) :
    Valid { t with root := node } (l.erase key) ↔ r.isLeaf = true ∧ t.kMinNum < r.keyNum := by
  constructor
  · intro hv
    by_contra hbad
    obtain ⟨h', hn, -⟩ := hv.tree
    exact hset.2 hbad h' _ (hn.withRoot t.root) hv.sorted
  · intro hgood
    obtain ⟨A, B, rfl, hn⟩ := hset.1 hgood
    have hA : key ∉ A := fun hm =>
      lt_irrefl key ((List.pairwise_append.mp hs).2.2 key hm key (by simp))
    rw [List.erase_append_right _ hA, List.erase_cons_head]
    refine ⟨ht.withRoot node, hs.sublist ?_, h, hn.withRoot node, fun _ => hpos⟩
    exact (List.sublist_cons_self key B).append_left A

/-- **The deletion of a key of an internal node**, on fuel for the height of the tree. -/
theorem btreeDelete_spec (hv : Valid t l) (hn : Holds t h t.root l) (hr : RightOf key t.root r)
    {fuel : ℕ} (hfuel : h < fuel) : ∃ t', btreeDelete fuel t key = .ok t' ∧
      (Valid t' (l.erase key) ↔ r.isLeaf = true ∧ t.kMinNum < r.keyNum) := by
  have ht := hv.params
  have hpos : 0 < t.root.keyNum := by
    obtain ⟨h', hn', hroot⟩ := hv.tree
    obtain ⟨rfl, -⟩ := hn.unique hn'
    refine hroot ?_
    rintro rfl
    obtain ⟨ds, hl⟩ := hn
    exact absurd (hr.live_cases hl).1 (by simp)
  obtain ⟨out, hstep, hout⟩ := deleteKey_spec ht hn hv.sorted hr hpos hfuel
  cases out with
  | kept node' =>
    obtain ⟨-, hpos', hset⟩ := hout
    exact ⟨{ t with root := node' }, by rw [btreeDelete, hstep]; rfl,
      hset.valid_iff ht hv.sorted hpos'⟩
  | newRoot node' =>
    obtain ⟨-, hpos', h', hset⟩ := hout
    exact ⟨{ t with root := node' }, by rw [btreeDelete, hstep]; rfl,
      hset.valid_iff ht hv.sorted hpos'⟩

/-- **Deleting a key of an internal node leaves a valid tree** without exactly this key if
and only if the child just right of the key is a leaf with more than the smallest number of
keys. -/
theorem btreeDelete_valid_iff (hv : Valid t l) (hk : HeldInside key t.root) :
    ∃ N, ∀ fuel ≥ N, ∃ t', btreeDelete fuel t key = .ok t' ∧ (Valid t' (l.erase key) ↔
      ∃ r, RightOf key t.root r ∧ r.isLeaf = true ∧ t.kMinNum < r.keyNum) := by
  obtain ⟨h, hn, -⟩ := hv.tree
  refine ⟨h + 1, fun fuel hfuel => ?_⟩
  obtain ⟨r₀, hr₀⟩ := hk.exists_rightOf hn
  obtain ⟨t', hstep, hiff⟩ := btreeDelete_spec hv hn hr₀ hfuel
  refine ⟨t', hstep, fun hv' => ⟨r₀, hr₀, hiff.mp hv'⟩, ?_⟩
  rintro ⟨r, hr, hgood⟩
  obtain ⟨t'', hstep', hiff'⟩ := btreeDelete_spec hv hn hr hfuel
  obtain rfl := Except.ok.inj (hstep.symm.trans hstep')
  exact hiff'.mpr hgood

end

/-- A leaf of order 4 with one key. -/
def sampleLeaf (k : ℤ) : BtreeNode := ⟨[k, 0, 0], [none, none, none, none], 1, true⟩

/-- The tree of order 4 with the key 5 between a leaf with the key 1 and another child. -/
def sampleTree (right : BtreeNode) : Btree where
  root := ⟨[5, 0, 0], [some (sampleLeaf 1), some right, none, none], 1, false⟩
  kMaxNum := 3
  kMinNum := 1
  kMidIdx := 1
  order := 4

theorem holds_sampleLeaf (right : BtreeNode) (k : ℤ) :
    Holds (sampleTree right) 0 (sampleLeaf k) [k] :=
  ⟨[none, none], rfl, rfl, ⟨[0, 0], rfl⟩, rfl, ⟨[none, none], rfl⟩, rfl, rfl, by simp [sampleLeaf]⟩

theorem holds_sampleTree {right : BtreeNode} {x : List ℤ} (hmin : 1 ≤ right.keyNum)
    (hr : Holds (sampleTree right) 0 right x) :
    Holds (sampleTree right) 1 (sampleTree right).root (1 :: 5 :: x) := by
  refine ⟨[5], [some (sampleLeaf 1), some right], ⟨rfl, rfl, ⟨[0, 0], rfl⟩, rfl,
    ⟨[none, none], rfl⟩, rfl, rfl, by simp⟩, weave_cons.mpr
    ⟨[1], x, child_some.mpr ⟨le_rfl, holds_sampleLeaf right 1⟩, weave_single.mpr ?_, rfl⟩⟩
  exact child_some.mpr ⟨hmin, hr⟩

theorem valid_sampleTree {right : BtreeNode} {x : List ℤ} (hmin : 1 ≤ right.keyNum)
    (hr : Holds (sampleTree right) 0 right x) (hs : (1 :: 5 :: x).Pairwise (· < ·)) :
    Valid (sampleTree right) (1 :: 5 :: x) :=
  ⟨⟨le_rfl, rfl, rfl, rfl⟩, hs, 1, holds_sampleTree hmin hr, fun _ => Nat.one_pos⟩

/-- With two keys in the right leaf, the key 5 is deleted well. -/
theorem btreeDelete_sample_two : ∃ N, ∀ fuel ≥ N, ∃ t',
    btreeDelete fuel (sampleTree ⟨[7, 8, 0], [none, none, none, none], 2, true⟩) 5 = .ok t' ∧
      (Valid t' ([1, 5, 7, 8].erase 5) ↔ ∃ r, RightOf 5 (sampleTree
        ⟨[7, 8, 0], [none, none, none, none], 2, true⟩).root r ∧ r.isLeaf = true ∧ 1 < r.keyNum) :=
  btreeDelete_valid_iff (valid_sampleTree (by decide) ⟨[none, none, none], rfl, rfl, ⟨[0], rfl⟩,
    rfl, ⟨[none], rfl⟩, rfl, rfl, by simp⟩ (by decide)) (.here rfl Nat.one_pos rfl)

/-- With one key in the right leaf, the tree that is left is not valid. -/
theorem btreeDelete_sample_one :
    Valid (sampleTree (sampleLeaf 7)) [1, 5, 7] ∧ HeldInside 5 (sampleTree (sampleLeaf 7)).root ∧
      ¬∃ N, ∀ fuel ≥ N, ∃ t', btreeDelete fuel (sampleTree (sampleLeaf 7)) 5 = .ok t' ∧
        Valid t' ([1, 5, 7].erase 5) := by
  have hr := holds_sampleLeaf (sampleLeaf 7) 7
  have hv : Valid (sampleTree (sampleLeaf 7)) [1, 5, 7] := valid_sampleTree le_rfl hr (by decide)
  refine ⟨hv, .here rfl Nat.one_pos rfl, ?_⟩
  rintro ⟨N, hN⟩
  obtain ⟨t', hstep, hv'⟩ := hN (max N 2) (le_max_left N 2)
  have hright : RightOf 5 (sampleTree (sampleLeaf 7)).root (sampleLeaf 7) :=
    .here rfl Nat.one_pos rfl rfl
  obtain ⟨t'', hstep', hiff⟩ :=
    btreeDelete_spec hv (holds_sampleTree le_rfl hr) hright (le_max_right N 2)
  obtain rfl := Except.ok.inj (hstep.symm.trans hstep')
  exact absurd (hiff.mp hv').2 (by decide)

end BTree

end BackendStudy
