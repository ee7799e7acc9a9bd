import BackendStudy.BTree.Delete

/-!
# Deleting a key that no internal node holds

On the way down a deletion gives every child it enters a key more than the smallest number, from
a sibling or by merging two children. All keys and children of the child stay where they are in
it (`BackendStudy.BTree.Widens`), so a path to a leaf stays one
(`BackendStudy.BTree.AtLeaf.widens`), and the leaf has a key to give
(`BackendStudy.BTree.deleteKey_leafKey`). The tree becomes lower only where the root gives its one
key to the merge of its two children, and then these are the new root
(`BackendStudy.BTree.btreeDelete_leafKey`).
-/

namespace BackendStudy

namespace BTree

open Slots Multiway

/-- **A key in a leaf** at or below a node. -/
inductive AtLeaf (key : ℤ) : BtreeNode → Prop
  /-- The node is a leaf and holds the key. -/
  | here {node : BtreeNode} {i : ℕ} : node.isLeaf = true → i < node.keyNum →
      node.keys[i]? = some key → AtLeaf key node
  /-- A leaf below it does. -/
  | under {node c : BtreeNode} {i : ℕ} : node.isLeaf = false → i ≤ node.keyNum →
      node.children[i]? = some (some c) → AtLeaf key c → AtLeaf key node

section

variable {t : Btree} {node c c' : BtreeNode} {lf : Bool} {h : ℕ} {key : ℤ}
  {l ks K₁ K₂ P S x : List ℤ} {ds D₁ D₂ : List (Option BtreeNode)}

/-! ### Where a key is -/

/-- A key in a leaf, in the live cells. -/
theorem Live.atLeaf_iff (hl : Live t node lf ks ds) : AtLeaf key node ↔
    (lf = true ∧ key ∈ ks) ∨ (lf = false ∧ ∃ c, some c ∈ ds ∧ AtLeaf key c) := by
  obtain ⟨rest, hks⟩ := hl.keys
  obtain ⟨crest, hds⟩ := hl.children
  have hnum := hl.keyNum
  have hcount := hl.count
  constructor
  · intro hk
    cases hk with
    | @here _ i hleaf hi hk =>
      rw [hks, List.getElem?_append_left (by omega)] at hk
      exact Or.inl ⟨hl.isLeaf.symm.trans hleaf, List.mem_of_getElem? hk⟩
    | @under _ c i hleaf hi hc hrec =>
      rw [hds, List.getElem?_append_left (by omega)] at hc
      exact Or.inr ⟨hl.isLeaf.symm.trans hleaf, c, List.mem_of_getElem? hc, hrec⟩
  · rintro (⟨rfl, hm⟩ | ⟨rfl, c, hm, hrec⟩)
    · obtain ⟨i, hi, hk⟩ := List.getElem_of_mem hm
      refine .here hl.isLeaf (i := i) (by omega) ?_
      rw [hks, List.getElem?_append_left hi, List.getElem?_eq_getElem hi, hk]
    · obtain ⟨i, hi, hc⟩ := List.getElem_of_mem hm
      refine .under hl.isLeaf (i := i) (by omega) ?_ hrec
      rw [hds, List.getElem?_append_left hi, List.getElem?_eq_getElem hi, hc]

/-- **More keys and children around it** do not change that a key is in a leaf. -/
theorem AtLeaf.widens (hk : AtLeaf key c) (hw : Widens t c c') : AtLeaf key c' := by
  obtain ⟨lf, K, D, A, A', B, B', hl, hl', -⟩ := hw
  rcases hl.atLeaf_iff.mp hk with ⟨hlf, hm⟩ | ⟨hlf, d, hm, hrec⟩
  · exact hl'.atLeaf_iff.mpr (Or.inl ⟨hlf, by simp [hm]⟩)
  · exact hl'.atLeaf_iff.mpr (Or.inr ⟨hlf, d, by simp [hm], hrec⟩)

theorem AtLeaf.mem (hk : AtLeaf key node) (hn : Holds t h node l) : key ∈ l := by
  induction h generalizing node l with
  | zero =>
    obtain ⟨ds, hl⟩ := hn
    rcases hl.atLeaf_iff.mp hk with ⟨-, hm⟩ | ⟨hlf, -⟩
    · exact hm
    · exact absurd hlf (by simp)
  | succ h ih =>
    obtain ⟨ks, ds, hl, hw⟩ := hn
    rcases hl.atLeaf_iff.mp hk with ⟨hlf, -⟩ | ⟨-, c, hm, hrec⟩
    · exact absurd hlf (by simp)
    · obtain ⟨x, hx, hsub⟩ := hw.mem_subtree hm
      exact hsub key (ih hrec (child_some.mp hx).2)

/-- **A key of a subtree** is held by an internal node or in a leaf. -/
theorem Holds.inside_or_atLeaf (hn : Holds t h node l) (hm : key ∈ l) :
    HeldInside key node ∨ AtLeaf key node := by
  induction h generalizing node l with
  | zero =>
    obtain ⟨ds, hl⟩ := hn
    exact Or.inr (hl.atLeaf_iff.mpr (Or.inl ⟨rfl, hm⟩))
  | succ h ih =>
    obtain ⟨ks, ds, hl, hw⟩ := hn
    obtain ⟨rest, hks⟩ := hl.keys
    obtain ⟨crest, hds⟩ := hl.children
    have hnum := hl.keyNum
    have hcount := hl.count
    rcases hw.mem_cases hm with hk | ⟨d, hd, x, ⟨c, rfl, -, hc⟩, hx⟩
    · obtain ⟨i, hi, hk⟩ := List.getElem_of_mem hk
      refine Or.inl (.here hl.isLeaf (i := i) (by omega) ?_)
      rw [hks, List.getElem?_append_left hi, List.getElem?_eq_getElem hi, hk]
    · rcases ih hc hx with hin | hat
      · obtain ⟨i, hi, hc⟩ := List.getElem_of_mem hd
        refine Or.inl (.under hl.isLeaf (i := i) (by omega) ?_ hin)
        rw [hds, List.getElem?_append_left hi, List.getElem?_eq_getElem hi, hc]
      · exact Or.inr (hl.atLeaf_iff.mpr (Or.inr ⟨rfl, c, hd, hat⟩))

/-- A key in a leaf is not one of the keys of the internal node above. -/
theorem AtLeaf.notMem_keys (hk : AtLeaf key node) (hl : Live t node false ks ds)
    (hw : Weave (Child t h) ds ks l) (hs : l.Pairwise (· < ·)) : key ∉ ks := by
  intro hm
  obtain ⟨K₁, K₂, rfl⟩ := List.append_of_mem hm
  have hcount := hl.count
  simp only [List.length_append, List.length_cons] at hcount
  obtain ⟨D₁, D₂, rfl, hD⟩ : ∃ D₁ D₂, ds = D₁ ++ D₂ ∧ D₁.length = K₁.length + 1 :=
    ⟨ds.take (K₁.length + 1), ds.drop (K₁.length + 1), by simp, by simp; omega⟩
  obtain ⟨x, y, hx, hy, rfl⟩ := (weave_append hD).mp hw
  obtain ⟨-, hsy, hlt⟩ := List.pairwise_append.mp hs
  rw [List.pairwise_cons] at hsy
  rcases hl.atLeaf_iff.mp hk with ⟨hlf, -⟩ | ⟨-, c, hc, hrec⟩
  · exact absurd hlf (by simp)
  · rcases List.mem_append.mp hc with hc | hc
    · obtain ⟨z, hz, hsub⟩ := hx.mem_subtree hc
      have hmx : key ∈ x := hsub key (hrec.mem (child_some.mp hz).2)
      exact absurd (hlt key hmx key List.mem_cons_self) (lt_irrefl key)
    · obtain ⟨z, hz, hsub⟩ := hy.mem_subtree hc
      have hmy : key ∈ y := hsub key (hrec.mem (child_some.mp hz).2)
      exact absurd (hsy.1 key hmy) (lt_irrefl key)

/-- The path to a key in a leaf goes through the child the search chooses. -/
theorem AtLeaf.focus (hk : AtLeaf key node)
    (hl : Live t node false (K₁ ++ K₂) (D₁ ++ some c :: D₂)) (hP : Front (Child t h) D₁ K₁ P)
    (hS : Back (Child t h) K₂ D₂ S) (hPk : ∀ a ∈ P, a < key) (hSk : ∀ a ∈ S, key < a) :
    AtLeaf key c := by
  rcases hl.atLeaf_iff.mp hk with ⟨hlf, -⟩ | ⟨-, d, hd, hrec⟩
  · exact absurd hlf (by simp)
  · rcases List.mem_append.mp hd with hd | hd
    · obtain ⟨y, hy, hsub⟩ := hP.mem_subtree hd
      have hmP : key ∈ P := hsub key (hrec.mem (child_some.mp hy).2)
      exact absurd (hPk key hmP) (lt_irrefl key)
    · rcases List.mem_cons.mp hd with he | hd
      · exact Option.some.inj he ▸ hrec
      · obtain ⟨y, hy, hsub⟩ := hS.mem_subtree hd
        have hmS : key ∈ S := hsub key (hrec.mem (child_some.mp hy).2)
        exact absurd (hSk key hmS) (lt_irrefl key)

/-! ### The descent -/

theorem Live.deleteKey_absent (fuel : ℕ) (hl : Live t node true ks ds) (hs : ks.Pairwise (· < ·))
    (hk : key ∉ ks) : deleteKey t (fuel + 1) node key = .ok (.kept node) := by
  by_cases hzero : node.keyNum = 0
  · rw [deleteKey, if_pos hzero]
  · obtain ⟨K₁, K₂, rfl, hK₁, hK₂⟩ := exists_cut hs hk
    have hfind : findKey key node.keys 0 node.keyNum = .ok K₁.length := by
      refine hl.findKey_eq hK₁ fun b hb => ?_
      exact (hK₂ b (List.mem_of_mem_head? hb)).le
    have hother := hl.not_found hK₂
    have hchild : get Fault.outOfRange node.children K₁.length = .ok none := by
      obtain ⟨D₁, d, D₂, rfl, hD⟩ := hl.exists_child
      rw [hl.get_child hD.symm, hl.ds_null rfl d (by simp)]
    rw [deleteKey]
    simp only [hzero, if_false, hfind, ok_bind, Bool.false_eq_true, hchild, hother]

/-- Taking a key out of the part of a sorted sequence that it can only be in. -/
theorem erase_middle (hs : (P ++ (x ++ S)).Pairwise (· < ·))
    (hkey : key ∈ P ++ (x ++ S) → key ∈ x) :
    (P ++ (x ++ S)).erase key = P ++ (x.erase key ++ S) := by
  by_cases hm : key ∈ x
  · have hP : key ∉ P := fun hP =>
      lt_irrefl key ((List.pairwise_append.mp hs).2.2 key hP key (List.mem_append_left _ hm))
    rw [List.erase_append_right _ hP, List.erase_append_left _ hm]
  · rw [List.erase_of_not_mem fun h => hm (hkey h), List.erase_of_not_mem hm]

/-- **What the deletion of a key leaves** that no internal node holds: the sequence without the
key in the place of the node, or, of a root with one key, in the place of its merged children. -/
def Drops (t : Btree) (h : ℕ) (node : BtreeNode) (key : ℤ) (l : List ℤ) : Outcome → Prop
  | .kept node' => node.keyNum ≤ node'.keyNum + 1 ∧ (h ≠ 0 → 0 < node'.keyNum) ∧
      Holds t h node' (l.erase key)
  | .newRoot node' => node.keyNum = 1 ∧ 0 < node'.keyNum ∧
      ∃ h', h = h' + 1 ∧ Holds t h' node' (l.erase key) ∧ ∃ n c fuel,
        mergeInto node n = .ok (.fromRoot c) ∧ deleteKey t fuel c key = .ok (.kept node')

/-- **The descent of a deletion** to a key in a leaf, or to where it would be. -/
theorem deleteKey_leafKey {fuel : ℕ} (ht : Params t) (hn : Holds t h node l)
    (hs : l.Pairwise (· < ·)) (hkey : key ∈ l → AtLeaf key node) (hpos : h ≠ 0 → 0 < node.keyNum)
    (hfuel : h < fuel) :
    ∃ out, deleteKey t fuel node key = .ok out ∧ Drops t h node key l out := by
  have hmin₁ := ht.min_pos
  induction h generalizing node l fuel with
  | zero =>
    obtain ⟨fuel, rfl⟩ : ∃ f, fuel = f + 1 := ⟨fuel - 1, by omega⟩
    obtain ⟨ds, hl⟩ := hn
    -- at a leaf the key is taken out, or it is not in the tree at all
    by_cases hm : key ∈ l
    · obtain ⟨K₁, K₂, rfl⟩ := List.append_of_mem hm
      have hK₁ : ∀ a ∈ K₁, a < key := fun a ha =>
        (List.pairwise_append.mp hs).2.2 a ha key List.mem_cons_self
      obtain ⟨node', D, hstep, hnum, hl'⟩ := hl.deleteKey_leaf fuel hK₁
      refine ⟨_, hstep, by omega, fun h => absurd rfl h, D, ?_⟩
      rwa [List.erase_append_right _ fun hK => lt_irrefl key (hK₁ key hK), List.erase_cons_head]
    · refine ⟨_, hl.deleteKey_absent fuel hs hm, by omega, fun h => absurd rfl h, ds, ?_⟩
      rwa [List.erase_of_not_mem hm]
  | succ h ih =>
    obtain ⟨fuel, rfl⟩ : ∃ f, fuel = f + 1 := ⟨fuel - 1, by omega⟩
    obtain ⟨ks, ds, hl, hw⟩ := hn
    -- the key is at a leaf, so it is not in this node
    have hks : key ∉ ks := fun hm => (hkey (hw.mem hm)).notMem_keys hl hw hs hm
    obtain ⟨K₁, K₂, D₁, c, D₂, P, x, S, hl, hD, hP, hc, hS, rfl, hK₁, hK₂, hPk, hSk⟩ :=
      hl.focus hw hs hks
    have hkc : key ∈ P ++ (x ++ S) → AtLeaf key c := fun hm =>
      (hkey hm).focus hl hP hS hPk hSk
    have hpos := hpos (by simp)
    obtain ⟨d, hd, ⟨hdesc, hwide, hmerged⟩⟩ := open_spec ht hl hD hP hc hS hpos
    rw [hl.deleteKey_descend hD hpos hK₁ hK₂ hd]
    -- the child that the deletion goes on in, or the merged child of an emptied root
    rcases d with ⟨node₁, i, c₁⟩ | c₁
    · obtain ⟨K₁, K₂, D₁, D₂, P', x', S', hl₁, hi, hD₁, hP₁, hc₁, hS₁, hseq, hgive, hnum, hpos₁,
        -⟩ := hdesc
      have hkx : key ∈ P' ++ (x' ++ S') → AtLeaf key c₁ := fun hm => (hkc (hseq ▸ hm)).widens hwide
      rw [hseq] at hs ⊢
      have hsx : x'.Pairwise (· < ·) :=
        (List.pairwise_append.mp (List.pairwise_append.mp hs).2.1).1
      obtain ⟨out, hstep, hout⟩ := ih (l := x') hc₁ hsx
        (fun hm => hkx (by simp [hm])) (fun _ => by omega) (show h < fuel by omega)
      rcases out with c₂ | c₂
      · obtain ⟨hnum₂, -, hc₂⟩ := hout
        refine ⟨.kept (node₁.setChild i c₂), by rw [Descent.follow, hstep]; rfl, hnum,
          fun _ => hpos₁, ?_⟩
        rw [erase_middle hs fun hm => (hkx hm).mem hc₁]
        exact ⟨_, _, hl₁.setChild hi c₂, (weave_focus hD₁).mpr ⟨P', x'.erase key, S', hP₁,
          child_some.mpr ⟨by omega, hc₂⟩, hS₁, rfl⟩⟩
      -- a child that has been given a key is not the root and is not emptied
      · exact absurd hout.1 (by omega)
    · obtain ⟨hone, hc₁, hgive, -⟩ := hdesc
      obtain ⟨out, hstep, hout⟩ := ih (l := P ++ (x ++ S)) hc₁ hs
        (fun hm => (hkc hm).widens hwide) (fun _ => by omega) (show h < fuel by omega)
      obtain ⟨n, hmerge⟩ := hmerged c₁ rfl
      rcases out with c₂ | c₂
      · obtain ⟨hnum₂, -, hc₂⟩ := hout
        exact ⟨.newRoot c₂, by rw [Descent.follow, hstep]; rfl, hone, by omega, h, rfl, hc₂, n, c₁,
          fuel, hmerge, hstep⟩
      · exact absurd hout.1 (by omega)

/-! ### Deletion from a tree -/

/-- **Deleting a key that no internal node holds** from a valid tree returns and leaves a valid
tree, whose sequence is the old one without the key. The tree has the height it had, or one less
where the root had one key and its two children have been merged to the new root. -/
theorem btreeDelete_leafKey (hv : Valid t l) (hk : ¬HeldInside key t.root) :
    ∃ N, ∀ fuel ≥ N, ∃ t', btreeDelete fuel t key = .ok t' ∧ Valid t' (l.erase key) ∧
      ∃ h h', Holds t h t.root l ∧ Holds t' h' t'.root (l.erase key) ∧
        (h' = h ∨ h = h' + 1 ∧ t.root.keyNum = 1 ∧ ∃ n c m,
          mergeInto t.root n = .ok (.fromRoot c) ∧ deleteKey t m c key = .ok (.kept t'.root)) := by
  obtain ⟨h, hn, hpos⟩ := hv.tree
  refine ⟨h + 1, fun fuel hfuel => ?_⟩
  have hs' : (l.erase key).Pairwise (· < ·) := hv.sorted.sublist List.erase_sublist
  obtain ⟨out, hstep, hout⟩ := deleteKey_leafKey hv.params hn hv.sorted
    (fun hm => (hn.inside_or_atLeaf hm).resolve_left hk) hpos hfuel
  rcases out with root | root
  · obtain ⟨-, hpos', hn'⟩ := hout
    exact ⟨{ t with root := root }, by rw [btreeDelete, hstep]; rfl,
      ⟨hv.params.withRoot root, hs', h, hn'.withRoot root, hpos'⟩, h, h, hn, hn'.withRoot root,
      Or.inl rfl⟩
  · obtain ⟨hone, hpos', h', rfl, hn', hmerge⟩ := hout
    exact ⟨{ t with root := root }, by rw [btreeDelete, hstep]; rfl,
      ⟨hv.params.withRoot root, hs', h', hn'.withRoot root, fun _ => hpos'⟩, h' + 1, h', hn,
      hn'.withRoot root, Or.inr ⟨rfl, hone, hmerge⟩⟩

end

/-- Deleting 1 from the tree with one key in each node merges the leaves. -/
theorem btreeDelete_leafKey_sample : ∃ N, ∀ fuel ≥ N, ∃ t',
    btreeDelete fuel (sampleTree (sampleLeaf 7)) 1 = .ok t' ∧ Valid t' [5, 7] := by
  have hv : Valid (sampleTree (sampleLeaf 7)) [1, 5, 7] :=
    valid_sampleTree le_rfl (holds_sampleLeaf (sampleLeaf 7) 7) (by decide)
  have hleaf : ∀ k, ¬HeldInside 1 (sampleLeaf k) := by
    intro k hk
    cases hk with
    | here hl => exact absurd hl (by simp [sampleLeaf])
    | under hl => exact absurd hl (by simp [sampleLeaf])
  have hk : ¬HeldInside 1 (sampleTree (sampleLeaf 7)).root := by
    intro hk
    cases hk with
    | @here _ i _ hi hkey =>
      obtain rfl : i = 0 := Nat.lt_one_iff.mp hi
      exact absurd hkey (by simp [sampleTree])
    | @under _ c i _ hi hc hrec =>
      have hcells : c = sampleLeaf 1 ∨ c = sampleLeaf 7 := by
        obtain rfl | rfl : i = 0 ∨ i = 1 := Nat.le_one_iff_eq_zero_or_eq_one.mp hi
        · exact Or.inl (Option.some.inj (Option.some.inj hc)).symm
        · exact Or.inr (Option.some.inj (Option.some.inj hc)).symm
      rcases hcells with rfl | rfl <;> exact hleaf _ hrec
  obtain ⟨N, hN⟩ := btreeDelete_leafKey hv hk
  refine ⟨N, fun fuel hfuel => ?_⟩
  obtain ⟨t', hstep, hv', -⟩ := hN fuel hfuel
  exact ⟨t', hstep, hv'⟩

end BTree

end BackendStudy
