import BackendStudy.BTree.Insert

/-!
# The shape of a B-tree

What keeps the accesses of the operations in range is not the order of the keys but the shape
of the tree: all leaves at one depth, one child more than keys in every internal node, and
children with enough keys. `BackendStudy.BTree.Shaped` says this with the condition on the
children as a parameter, and of a node through its live cells (`BackendStudy.BTree.Kids`), so
that an operation that moves children around keeps it for the reason that it invents none.
-/

namespace BackendStudy

namespace BTree

/-- **The shape of a subtree** of height `h` whose nodes but the root satisfy `ok` at their
height. -/
def Shaped (t : Btree) (ok : ℕ → BtreeNode → Prop) : ℕ → BtreeNode → Prop
  | 0, node => ∃ ks ds, Live t node true ks ds
  | h + 1, node => ∃ ks ds, Live t node false ks ds ∧
      ∀ d ∈ ds, ∃ c, d = some c ∧ ok h c ∧ Shaped t ok h c

/-- The child cells of a node of height `h` that has the shape. -/
def Kids (t : Btree) (ok : ℕ → BtreeNode → Prop) : ℕ → Bool → List (Option BtreeNode) → Prop
  | 0, lf, _ => lf = true
  | h + 1, lf, ds => lf = false ∧ ∀ d ∈ ds, ∃ c, d = some c ∧ ok h c ∧ Shaped t ok h c

/-- **A condition on children that an insertion keeps**: nodes with the smallest number of keys
satisfy it, and it is kept as keys are added. -/
structure Upward (t : Btree) (ok : ℕ → BtreeNode → Prop) : Prop where
  half : ∀ h c, c.keyNum = t.kMinNum → ok h c
  grow : ∀ h c c', ok h c → c.keyNum ≤ c'.keyNum → ok h c'

section

variable {t : Btree} {ok ok' : ℕ → BtreeNode → Prop} {node c : BtreeNode} {h h' : ℕ} {lf : Bool}
  {ks : List ℤ} {ds ds' : List (Option BtreeNode)}

theorem shaped_iff :
    Shaped t ok h node ↔ ∃ lf ks ds, Live t node lf ks ds ∧ Kids t ok h lf ds := by
  cases h with
  | zero =>
    constructor
    · rintro ⟨ks, ds, hl⟩
      exact ⟨true, ks, ds, hl, rfl⟩
    · rintro ⟨lf, ks, ds, hl, rfl⟩
      exact ⟨ks, ds, hl⟩
  | succ h =>
    constructor
    · rintro ⟨ks, ds, hl, hk⟩
      exact ⟨false, ks, ds, hl, rfl, hk⟩
    · rintro ⟨lf, ks, ds, hl, rfl, hk⟩
      exact ⟨ks, ds, hl, hk⟩

theorem Live.shaped (hl : Live t node lf ks ds) (hk : Kids t ok h lf ds) : Shaped t ok h node :=
  shaped_iff.mpr ⟨lf, ks, ds, hl, hk⟩

/-- The live cells of a node that has the shape. -/
theorem Shaped.kids (hn : Shaped t ok h node) (hl : Live t node lf ks ds) :
    Kids t ok h lf ds := by
  obtain ⟨lf', ks', ds', hl', hk⟩ := shaped_iff.mp hn
  obtain ⟨rfl, rfl, rfl⟩ := hl.unique hl'
  exact hk

theorem Kids.mono (hk : Kids t ok h lf ds) (hsub : ∀ d ∈ ds', d ∈ ds) : Kids t ok h lf ds' := by
  cases h with
  | zero => exact hk
  | succ h => exact ⟨hk.1, fun d hd => hk.2 d (hsub d hd)⟩

theorem kids_append : Kids t ok h lf (ds ++ ds') ↔ Kids t ok h lf ds ∧ Kids t ok h lf ds' := by
  constructor
  · intro hk
    exact ⟨hk.mono fun d hd => List.mem_append_left _ hd,
      hk.mono fun d hd => List.mem_append_right _ hd⟩
  · rintro ⟨hk, hk'⟩
    cases h with
    | zero => exact hk
    | succ h =>
      refine ⟨hk.1, fun d hd => ?_⟩
      exact (List.mem_append.mp hd).elim (hk.2 d) (hk'.2 d)

theorem kids_cons {d : Option BtreeNode} :
    Kids t ok h lf (d :: ds) ↔ Kids t ok h lf [d] ∧ Kids t ok h lf ds :=
  @kids_append t ok h lf [d] ds

/-- One child. -/
theorem kids_some : Kids t ok (h + 1) false [some c] ↔ ok h c ∧ Shaped t ok h c := by
  simp [Kids]

theorem Kids.leaf_eq (hk : Kids t ok h lf ds) : lf = decide (h = 0) := by
  cases h with
  | zero => exact hk
  | succ h => exact hk.1

theorem Shaped.keyNum_le (hn : Shaped t ok h node) : node.keyNum ≤ t.kMaxNum := by
  obtain ⟨lf, ks, ds, hl, -⟩ := shaped_iff.mp hn
  exact hl.keyNum.trans_le hl.keyNum_le

theorem Shaped.mono (hn : Shaped t ok h node) (hok : ∀ h c, ok h c → ok' h c) :
    Shaped t ok' h node := by
  induction h generalizing node with
  | zero => exact hn
  | succ h ih =>
    obtain ⟨ks, ds, hl, hk⟩ := hn
    refine ⟨ks, ds, hl, fun d hd => ?_⟩
    obtain ⟨c, rfl, hc, hn⟩ := hk d hd
    exact ⟨c, rfl, hok h c hc, ih hn⟩

/-- The height of a node is determined. -/
theorem Shaped.height_eq (hn : Shaped t ok h node) (hn' : Shaped t ok' h' node) : h = h' := by
  induction h generalizing h' node with
  | zero =>
    obtain ⟨ks, ds, hl⟩ := hn
    simpa [eq_comm] using (hn'.kids hl).leaf_eq
  | succ h ih =>
    obtain ⟨ks, ds, hl, hk⟩ := hn
    have hk' := hn'.kids hl
    cases h' with
    | zero => exact absurd hk'.leaf_eq (by simp)
    | succ h' =>
      obtain ⟨d, hd⟩ : ∃ d, d ∈ ds := by
        refine List.exists_mem_of_length_pos ?_
        have := hl.count
        omega
      obtain ⟨c, rfl, -, hc⟩ := hk d hd
      obtain ⟨c', he, -, hc'⟩ := hk'.2 _ hd
      obtain rfl := Option.some.inj he
      rw [ih hc hc']

/-- The root pointer is not a number of the header. -/
theorem Shaped.withRoot (hn : Shaped t ok h node) (r : BtreeNode) :
    Shaped { t with root := r } ok h node := by
  induction h generalizing node with
  | zero =>
    obtain ⟨ks, ds, hl⟩ := hn
    exact ⟨ks, ds, hl.withRoot r⟩
  | succ h ih =>
    obtain ⟨ks, ds, hl, hk⟩ := hn
    refine ⟨ks, ds, hl.withRoot r, fun d hd => ?_⟩
    obtain ⟨c, rfl, hc, hn⟩ := hk d hd
    exact ⟨c, rfl, hc, ih hn⟩

/-- The shape of a valid tree. -/
theorem Holds.shaped {l : List ℤ} (hn : Holds t h node l) :
    Shaped t (fun _ c => t.kMinNum ≤ c.keyNum) h node := by
  induction h generalizing node l with
  | zero =>
    obtain ⟨ds, hl⟩ := hn
    exact ⟨l, ds, hl⟩
  | succ h ih =>
    obtain ⟨ks, ds, hl, hw⟩ := hn
    refine ⟨ks, ds, hl, fun d hd => ?_⟩
    obtain ⟨x, ⟨c, rfl, hmin, hc⟩, -⟩ := hw.mem_subtree hd
    exact ⟨c, rfl, hmin, ih hc⟩

end

end BTree

end BackendStudy
