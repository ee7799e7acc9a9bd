import BackendStudy.Lib.Multiway
import BackendStudy.BTree.Nodes
import Mathlib.Data.List.Sort

/-!
# Valid B-trees and insertion

A node is the root of a subtree of height `h` with the in-order key sequence `l` when its
live cells say so, level by level (`BackendStudy.BTree.Holds`); a tree is valid when this
holds of its root and the sequence is sorted (`BackendStudy.BTree.Valid`).

An insertion goes down one path. It splits every full child before it enters it, so the
node it stands at has room, and it puts the key between the part of the sequence below
the key and the part above it (`BackendStudy.BTree.insertNotfull_spec`). The source reads
the key before the chosen child also where there is none, so the descent either ends with
the key inserted or with an access out of range, and with nothing else
(`BackendStudy.BTree.btreeInsert_valid`).
-/

namespace BackendStudy

namespace BTree

open Slots Multiway

/-! ### Valid trees -/

/-- **A subtree of height `h` with the key sequence `l`.** The children of a node hold at
least the smallest number of keys; the largest number is the capacity. -/
def Holds (t : Btree) : ℕ → BtreeNode → List ℤ → Prop
  | 0, node, l => ∃ ds, Live t node true l ds
  | h + 1, node, l => ∃ ks ds, Live t node false ks ds ∧
      Weave (fun d x => ∃ c, d = some c ∧ t.kMinNum ≤ c.keyNum ∧ Holds t h c x) ds ks l

/-- A child cell that holds a subtree of height `h`. -/
def Child (t : Btree) (h : ℕ) (d : Option BtreeNode) (x : List ℤ) : Prop :=
  ∃ c, d = some c ∧ t.kMinNum ≤ c.keyNum ∧ Holds t h c x

/-- **A valid B-tree with the key sequence `l`**: strictly sorted, all leaves at one depth,
every node but the root with at least the smallest number of keys and every node with at
most the largest, one child more than keys in every internal node, and all child cells of
a leaf null. The root of a tree that is not a leaf has a key. -/
structure Valid (t : Btree) (l : List ℤ) : Prop where
  params : Params t
  sorted : l.Pairwise (· < ·)
  tree : ∃ h, Holds t h t.root l ∧ (h ≠ 0 → 0 < t.root.keyNum)

section

variable {t : Btree} {node : BtreeNode} {h : ℕ} {l : List ℤ}

theorem child_some {c : BtreeNode} {x : List ℤ} :
    Child t h (some c) x ↔ t.kMinNum ≤ c.keyNum ∧ Holds t h c x := by
  constructor
  · rintro ⟨c', he, hmin, hc⟩
    obtain rfl := Option.some.inj he
    exact ⟨hmin, hc⟩
  · rintro ⟨hmin, hc⟩
    exact ⟨c, rfl, hmin, hc⟩

theorem Holds.keyNum_le (hn : Holds t h node l) : node.keyNum ≤ t.kMaxNum := by
  cases h with
  | zero =>
    obtain ⟨ds, hl⟩ := hn
    exact hl.keyNum.trans_le hl.keyNum_le
  | succ h =>
    obtain ⟨ks, ds, hl, -⟩ := hn
    exact hl.keyNum.trans_le hl.keyNum_le

/-- **A node determines its height and its key sequence.** -/
theorem Holds.unique {h' : ℕ} {l' : List ℤ} (hn : Holds t h node l) (hn' : Holds t h' node l') :
    h = h' ∧ l = l' := by
  induction h generalizing h' node l l' with
  | zero =>
    obtain ⟨ds, hl⟩ := hn
    cases h' with
    | zero =>
      obtain ⟨ds', hl'⟩ := hn'
      exact ⟨rfl, (hl.unique hl').2.1⟩
    | succ h' =>
      obtain ⟨ks', ds', hl', -⟩ := hn'
      exact absurd (hl.unique hl').1 (by simp)
  | succ h ih =>
    obtain ⟨ks, ds, hl, hw⟩ := hn
    cases h' with
    | zero =>
      obtain ⟨ds', hl'⟩ := hn'
      exact absurd (hl.unique hl').1 (by simp)
    | succ h' =>
      obtain ⟨ks', ds', hl', hw'⟩ := hn'
      obtain ⟨-, rfl, rfl⟩ := hl.unique hl'
      have hchild : ∀ c ∈ ds, ∀ x y, Child t h c x → Child t h' c y → h = h' ∧ x = y := by
        rintro c - x y ⟨c₁, rfl, -, hx⟩ ⟨c₂, he, -, hy⟩
        obtain rfl := Option.some.inj he
        exact ih hx hy
      refine ⟨?_, hw.unique hw' fun c hc x y hx hy => (hchild c hc x y hx hy).2⟩
      obtain ⟨c, D, x, S, rfl, hx, -⟩ := hw
      obtain ⟨c', D', x', S', he, hx', -⟩ := hw'
      obtain ⟨rfl, rfl⟩ := List.cons.inj he
      rw [(hchild c (by simp) x x' hx hx').1]

/-- A full node is cut at its middle key into two halves of its height. -/
theorem Holds.halves (ht : Params t) (hn : Holds t h node l) (hfull : node.keyNum = t.kMaxNum) :
    ∃ lf Ka m Kb Da Db xa xb, Live t node lf (Ka ++ m :: Kb) (Da ++ Db) ∧
      Ka.length = t.kMinNum ∧ Kb.length = t.kMinNum ∧ Da.length = t.kMinNum + 1 ∧
      l = xa ++ m :: xb ∧ ∀ c₁ c₂, Live t c₁ lf Ka Da → Live t c₂ lf Kb Db →
        Holds t h c₁ xa ∧ Holds t h c₂ xb := by
  cases h with
  | zero =>
    obtain ⟨ds, hl⟩ := hn
    obtain ⟨Ka, m, Kb, Da, Db, rfl, rfl, hKa, hKb, hDa⟩ := hl.cut ht hfull
    exact ⟨true, Ka, m, Kb, Da, Db, Ka, Kb, hl, hKa, hKb, hDa, rfl,
      fun c₁ c₂ h₁ h₂ => ⟨⟨Da, h₁⟩, ⟨Db, h₂⟩⟩⟩
  | succ h =>
    obtain ⟨ks, ds, hl, hw⟩ := hn
    obtain ⟨Ka, m, Kb, Da, Db, rfl, rfl, hKa, hKb, hDa⟩ := hl.cut ht hfull
    obtain ⟨xa, xb, hxa, hxb, rfl⟩ := (weave_append (by omega)).mp hw
    exact ⟨false, Ka, m, Kb, Da, Db, xa, xb, hl, hKa, hKb, hDa, rfl,
      fun c₁ c₂ h₁ h₂ => ⟨⟨Ka, Da, h₁, hxa⟩, ⟨Kb, Db, h₂, hxb⟩⟩⟩

/-- **An internal node cut at the child for a key** that is not one of its own. -/
theorem Live.focus {ks : List ℤ} {ds : List (Option BtreeNode)} (hl : Live t node false ks ds)
    (hw : Weave (Child t h) ds ks l) (hs : l.Pairwise (· < ·)) {key : ℤ} (hkey : key ∉ ks) :
    ∃ K₁ K₂ D₁ c D₂ P x S, Live t node false (K₁ ++ K₂) (D₁ ++ some c :: D₂) ∧
      D₁.length = K₁.length ∧ Front (Child t h) D₁ K₁ P ∧ Child t h (some c) x ∧
      Back (Child t h) K₂ D₂ S ∧ l = P ++ (x ++ S) ∧
      (∀ a ∈ K₁, a < key) ∧ (∀ a ∈ K₂, key < a) ∧ (∀ a ∈ P, a < key) ∧ ∀ a ∈ S, key < a := by
  obtain ⟨K₁, K₂, rfl, hK₁, hK₂⟩ := exists_cut (hs.sublist hw.sublist) hkey
  obtain ⟨D₁, d, D₂, rfl, hD⟩ := hl.exists_child
  obtain ⟨P, x, S, hP, ⟨c, rfl, hc⟩, hS, rfl⟩ := (weave_focus hD).mp hw
  obtain ⟨hsP, hs', -⟩ := List.pairwise_append.mp hs
  obtain ⟨-, hsS, -⟩ := List.pairwise_append.mp hs'
  exact ⟨K₁, K₂, D₁, c, D₂, P, x, S, hl, hD, hP, ⟨c, rfl, hc⟩, hS, rfl, hK₁, hK₂,
    hP.lt_of_sorted hsP hK₁, hS.gt_of_sorted hsS hK₂⟩

end

/-! ### Insertion below a node with room -/

/-- **A key inserted below a node**: the node keeps its height, its sequence has the key at
its sorted place, and it has no fewer keys of its own. -/
def Inserted (t : Btree) (h : ℕ) (node node' : BtreeNode) (key : ℤ) (l : List ℤ) : Prop :=
  ∃ A B, l = A ++ B ∧ Holds t h node' (A ++ key :: B) ∧ (∀ a ∈ A, a < key) ∧
    (∀ b ∈ B, key < b) ∧ node.keyNum ≤ node'.keyNum

/-- The result of a descent from a node: the key is inserted, or the descent has read out
of range. -/
def Inserts (t : Btree) (h : ℕ) (node : BtreeNode) (key : ℤ) (l : List ℤ)
    (res : Except Fault BtreeNode) : Prop :=
  (∃ node', res = .ok node' ∧ Inserted t h node node' key l) ∨ res = .error .outOfRange

section

variable {t : Btree} {node node₁ c : BtreeNode} {h fuel i : ℕ} {key m : ℤ} {l x P S K₁ K₂ : List ℤ}
  {D₁ D₂ : List (Option BtreeNode)}

/-- The descent into a child of a node, or of what a split has made of the node. -/
theorem Inserts.above {res : Except Fault BtreeNode} (hrec : Inserts t h c key x res)
    (hl : Live t node₁ false (K₁ ++ K₂) (D₁ ++ some c :: D₂)) (hi : i = D₁.length)
    (hD : D₁.length = K₁.length) (hP : Front (Child t h) D₁ K₁ P) (hS : Back (Child t h) K₂ D₂ S)
    (hmin : t.kMinNum ≤ c.keyNum) (hPk : ∀ a ∈ P, a < key) (hSk : ∀ a ∈ S, key < a)
    (hnum : node.keyNum ≤ node₁.keyNum) : Inserts t (h + 1) node key (P ++ (x ++ S))
      (res >>= fun child => .ok (node₁.setChild i child)) := by
  rcases hrec with ⟨child, rfl, A, B, rfl, hchild, hA, hB, hle⟩ | rfl
  · refine Or.inl ⟨node₁.setChild i child, rfl, P ++ A, B ++ S, by simp,
      ⟨_, _, hl.setChild hi child, (weave_focus hD).mpr ⟨P, A ++ key :: B, S, hP,
        child_some.mpr ⟨hmin.trans hle, hchild⟩, hS, by simp⟩⟩, ?_, ?_, hnum⟩
    · intro a ha
      exact (List.mem_append.mp ha).elim (hPk a) (hA a)
    · intro b hb
      exact (List.mem_append.mp hb).elim (hB b) (hSk b)
  · exact Or.inr rfl

theorem insertNotfull_room (hleaf : node.isLeaf = false)
    (hfind : findChild key node.keys node.keyNum = .ok i) (hchild : childAt node i = .ok c)
    (hroom : ¬c.keyNum = t.kMaxNum) (hk : getPred Fault.outOfRange node.keys i = .ok m)
    (hgt : key > m) : insertNotfull t (fuel + 1) node key =
      (insertNotfull t fuel c key >>= fun child => .ok (node.setChild i child)) := by
  simp only [insertNotfull, hleaf, Bool.false_eq_true, if_false, hfind, ok_bind, hchild, hroom, hk,
    hgt, if_true]

theorem insertNotfull_split {c' : BtreeNode} (hleaf : node.isLeaf = false)
    (hfind : findChild key node.keys node.keyNum = .ok i) (hchild : childAt node i = .ok c)
    (hfull : c.keyNum = t.kMaxNum) (hsplit : splitChild t node i = .ok node₁)
    (hk : getPred Fault.outOfRange node₁.keys (i + 1) = .ok m)
    (hc' : childAt node₁ (if key > m then i + 1 else i) = .ok c') :
    insertNotfull t (fuel + 1) node key = (insertNotfull t fuel c' key >>= fun child =>
      .ok (node₁.setChild (if key > m then i + 1 else i) child)) := by
  simp only [insertNotfull, hleaf, Bool.false_eq_true, if_false, hfind, ok_bind, hchild, hfull,
    if_true, hsplit, hk, Nat.add_sub_cancel, hc']

/-- The descent into the half of a split child that the key belongs to. -/
theorem Inserts.half (ht : Params t) {c₁ c₂ : BtreeNode} {xa xb : List ℤ}
    (hl : Live t node₁ false (K₁ ++ m :: K₂) (D₁ ++ some c₁ :: some c₂ :: D₂))
    (hi : i = D₁.length) (hD : D₁.length = K₁.length) (hn₁ : c₁.keyNum = t.kMinNum)
    (hn₂ : c₂.keyNum = t.kMinNum) (hx₁ : Holds t h c₁ xa) (hx₂ : Holds t h c₂ xb)
    (hP : Front (Child t h) D₁ K₁ P) (hS : Back (Child t h) K₂ D₂ S) (hPk : ∀ a ∈ P, a < key)
    (hSk : ∀ a ∈ S, key < a) (hs : (xa ++ m :: xb).Pairwise (· < ·)) (hkey : key ∉ xa ++ m :: xb)
    (hnum : node.keyNum ≤ node₁.keyNum)
    (hrec : ∀ c x, Holds t h c x → c.keyNum < t.kMaxNum → x.Pairwise (· < ·) → key ∉ x →
      Inserts t h c key x (insertNotfull t fuel c key)) :
    ∃ c', childAt node₁ (if key > m then i + 1 else i) = .ok c' ∧
      Inserts t (h + 1) node key (P ++ (xa ++ m :: xb ++ S)) (insertNotfull t fuel c' key >>=
        fun child => .ok (node₁.setChild (if key > m then i + 1 else i) child)) := by
  have hmax := ht.max
  obtain ⟨hsa, hsb, hab⟩ := List.pairwise_append.mp hs
  rw [List.pairwise_cons] at hsb
  simp only [List.mem_append, List.mem_cons, not_or] at hkey
  by_cases hgt : key > m
  · have hl₂ : Live t node₁ false ((K₁ ++ [m]) ++ K₂) ((D₁ ++ [some c₁]) ++ some c₂ :: D₂) := by
      simpa using hl
    -- the front half and the middle key stand before the new key as well
    have hPk₂ : ∀ a ∈ P ++ (xa ++ [m]), a < key := by
      intro a ha
      simp only [List.mem_append, List.mem_singleton] at ha
      rcases ha with ha | ha | rfl
      · exact hPk a ha
      · exact (hab a ha m (by simp)).trans hgt
      · exact hgt
    rw [if_pos hgt]
    refine ⟨c₂, hl₂.childAt (by simp [hi]), ?_⟩
    have := (hrec c₂ xb hx₂ (by omega) hsb.2 hkey.2.2).above (i := i + 1) hl₂
      (by simp [hi]) (by simp [hD]) (hP.snoc (child_some.mpr ⟨hn₁.ge, hx₁⟩)) hS hn₂.ge hPk₂ hSk hnum
    simpa using this
  · have hlt : key < m := lt_of_le_of_ne (not_lt.mp hgt) hkey.2.1
    -- the middle key and the rear half stand behind the new key as well
    have hSk₂ : ∀ a ∈ m :: (xb ++ S), key < a := by
      intro a ha
      simp only [List.mem_append, List.mem_cons] at ha
      rcases ha with rfl | ha | ha
      · exact hlt
      · exact hlt.trans (hsb.1 a ha)
      · exact hSk a ha
    rw [if_neg hgt]
    refine ⟨c₁, hl.childAt hi, ?_⟩
    have := (hrec c₁ xa hx₁ (by omega) hsa hkey.1).above (i := i) hl hi hD hP
      (hS.cons (child_some.mpr ⟨hn₂.ge, hx₂⟩)) hn₁.ge hPk hSk₂ hnum
    simpa using this

/-- **The descent of an insertion** below a node with room, on fuel for its height. -/
theorem insertNotfull_spec (ht : Params t) (hn : Holds t h node l)
    (hroom : node.keyNum < t.kMaxNum) (hs : l.Pairwise (· < ·)) (hkey : key ∉ l)
    (hfuel : h < fuel) : Inserts t h node key l (insertNotfull t fuel node key) := by
  -- by the height: a leaf takes the key, and a node above gives room to the child it goes on in
  induction h generalizing node l fuel with
  | zero =>
    obtain ⟨fuel, rfl⟩ : ∃ f, fuel = f + 1 := ⟨fuel - 1, by omega⟩
    obtain ⟨ds, hl⟩ := hn
    obtain ⟨A, B, rfl, hA, hB⟩ := exists_cut hs hkey
    obtain ⟨i, keys, keys', ds', hloop, hput, hl'⟩ :=
      hl.insert ht (hl.keyNum ▸ hroom) (fun a ha => (hA a (List.mem_of_getLast? ha)).le) hB
    refine Or.inl ⟨_, ?_, A, B, rfl, ⟨ds', hl'⟩, hA, hB, Nat.le_succ _⟩
    simp only [insertNotfull, hl.isLeaf, if_true, hloop, ok_bind, hput]
  | succ h ih =>
    obtain ⟨fuel, rfl⟩ : ∃ f, fuel = f + 1 := ⟨fuel - 1, by omega⟩
    have hfuel' : h < fuel := by omega
    obtain ⟨ks, ds, hl, hw⟩ := hn
    obtain ⟨K₁, K₂, D₁, c, D₂, P, x, S, hl, hD, hP, hc, hS, rfl, hK₁, hK₂, hPk, hSk⟩ :=
      hl.focus hw hs fun hm => hkey (hw.mem hm)
    obtain ⟨hmin, hcx⟩ := child_some.mp hc
    have hsx : x.Pairwise (· < ·) := (List.pairwise_append.mp (List.pairwise_append.mp hs).2.1).1
    have hkx : key ∉ x := fun hm => hkey (by simp [hm])
    have hfind : findChild key node.keys node.keyNum = .ok K₁.length := by
      obtain ⟨rest, hrest⟩ := hl.keys
      refine findChild_spec (by rw [hrest, List.append_assoc])
        (fun a ha => (hK₁ a (List.mem_of_getLast? ha)).le) hK₂ ?_
      rw [hl.keyNum, List.length_append]
    have hchild : childAt node K₁.length = .ok c := hl.childAt hD.symm
    by_cases hfull : c.keyNum = t.kMaxNum
    · -- the child is split, and the key goes to the side of the middle key it belongs to
      obtain ⟨lf, Ka, m, Kb, Da, Db, xa, xb, hcl, hKa, hKb, hDa, rfl, hhalves⟩ :=
        hcx.halves ht hfull
      obtain ⟨node₁, c₁, c₂, hsplit, hl₁, hc₁, hc₂⟩ :=
        splitChild_spec ht hl rfl hD (hl.keyNum ▸ hroom) hcl hKa hKb hDa
      obtain ⟨hx₁, hx₂⟩ := hhalves c₁ c₂ hc₁ hc₂
      have hn₁ : c₁.keyNum = t.kMinNum := hc₁.keyNum.trans hKa
      have hn₂ : c₂.keyNum = t.kMinNum := hc₂.keyNum.trans hKb
      have hnum : node.keyNum ≤ node₁.keyNum := by
        rw [hl.keyNum_add hl₁ (n := 1) (by simp; omega)]
        exact Nat.le_succ _
      have hkm : getPred Fault.outOfRange node₁.keys (K₁.length + 1) = .ok m := hl₁.get_key rfl
      obtain ⟨c', hc', hins⟩ := Inserts.half ht hl₁ hD.symm hD hn₁ hn₂ hx₁ hx₂ hP hS
        hPk hSk hsx hkx hnum fun c x hc hroom hs hkey => ih hc hroom hs hkey hfuel'
      rw [insertNotfull_split hl.isLeaf hfind hchild hfull hsplit hkm hc']
      exact hins
    · -- the key before the child is read, and there may be none
      have hlt : c.keyNum < t.kMaxNum := lt_of_le_of_ne hcx.keyNum_le hfull
      rcases List.eq_nil_or_concat K₁ with rfl | ⟨K, k, rfl⟩
      · right
        have hnone : getPred Fault.outOfRange node.keys 0 = .error .outOfRange := rfl
        simp only [List.length_nil] at hfind hchild
        simp only [insertNotfull, hl.isLeaf, Bool.false_eq_true, if_false, hfind, ok_bind, hchild,
          hfull, hnone, error_bind]
      · rw [List.concat_eq_append] at hl hD hP hK₁ hfind hchild
        have hl' : Live t node false (K ++ k :: K₂) (D₁ ++ some c :: D₂) := by simpa using hl
        have hkm : getPred Fault.outOfRange node.keys (K ++ [k]).length = .ok k := by
          rw [List.length_append]
          exact hl'.get_key rfl
        have hstep := @insertNotfull_room _ _ _ fuel _ _ _ hl.isLeaf hfind hchild hfull hkm
          (hK₁ k (by simp))
        -- the induction hypothesis is for the child, and what it gives is put back in its cell
        rw [hstep]
        exact (ih hcx hlt hsx hkx hfuel').above hl hD.symm hD hP hS hmin hPk hSk le_rfl

end

/-! ### Insertion into a tree -/

theorem Live.withRoot {t : Btree} {node : BtreeNode} {lf : Bool} {ks : List ℤ}
    {ds : List (Option BtreeNode)} (h : Live t node lf ks ds) (r : BtreeNode) :
    Live { t with root := r } node lf ks ds :=
  ⟨h.isLeaf, h.keyNum, h.keys, h.capacity, h.children, h.order, h.count, h.null⟩

theorem Holds.withRoot {t : Btree} {h : ℕ} {node : BtreeNode} {l : List ℤ}
    (hn : Holds t h node l) (r : BtreeNode) : Holds { t with root := r } h node l := by
  induction h generalizing node l with
  | zero =>
    obtain ⟨ds, hl⟩ := hn
    exact ⟨ds, hl.withRoot r⟩
  | succ h ih =>
    obtain ⟨ks, ds, hl, c, ds', x, S, rfl, hx, hS, rfl⟩ := hn
    have hchild : ∀ d x, Child t h d x → Child { t with root := r } h d x := by
      rintro d x ⟨c, rfl, hmin, hc⟩
      exact ⟨c, rfl, hmin, ih hc⟩
    exact ⟨ks, _, hl.withRoot r, c, ds', x, S, rfl, hchild _ _ hx,
      hS.mono fun d _ x hx => hchild d x hx, rfl⟩

theorem Params.withRoot {t : Btree} (ht : Params t) (r : BtreeNode) :
    Params { t with root := r } :=
  ⟨ht.min_pos, ht.mid, ht.max, ht.order⟩

/-- The sorted place of a key. -/
theorem orderedInsert_cut {A B : List ℤ} {key : ℤ} (hA : ∀ a ∈ A, a < key)
    (hB : ∀ b ∈ B, key < b) : (A ++ B).orderedInsert (· ≤ ·) key = A ++ key :: B := by
  induction A with
  | nil =>
    cases B with
    | nil => rfl
    | cons b B => exact List.orderedInsert_cons_of_le _ _ (hB b (by simp)).le
  | cons a A ih =>
    have ha : ¬key ≤ a := not_le_of_gt (hA a (by simp))
    rw [List.cons_append, List.orderedInsert_cons, if_neg ha, ih fun x hx => hA x (by simp [hx])]
    rfl

theorem sorted_cut {A B : List ℤ} {key : ℤ} (hs : (A ++ B).Pairwise (· < ·))
    (hA : ∀ a ∈ A, a < key) (hB : ∀ b ∈ B, key < b) : (A ++ key :: B).Pairwise (· < ·) := by
  rw [List.pairwise_append] at hs ⊢
  refine ⟨hs.1, List.pairwise_cons.mpr ⟨hB, hs.2.1⟩, fun a ha b hb => ?_⟩
  rcases List.mem_cons.mp hb with rfl | hb
  · exact hA a ha
  · exact hs.2.2 a ha b hb

/-- The tree whose root a descent has started from. -/
theorem Inserts.tree {t : Btree} {h : ℕ} {node : BtreeNode} {key : ℤ} {l : List ℤ}
    {res : Except Fault BtreeNode} (hins : Inserts t h node key l res) (ht : Params t)
    (hs : l.Pairwise (· < ·)) (hroot : h ≠ 0 → 0 < node.keyNum) :
    (∃ t', (res >>= fun root => .ok { t with root := root }) = .ok t' ∧
      Valid t' (l.orderedInsert (· ≤ ·) key)) ∨
    (res >>= fun root => .ok { t with root := root }) = Except.error (α := Btree) .outOfRange := by
  rcases hins with ⟨root, rfl, A, B, rfl, hn, hA, hB, hle⟩ | rfl
  · rw [orderedInsert_cut hA hB]
    exact Or.inl ⟨_, rfl, ht.withRoot root, sorted_cut hs hA hB, h, hn.withRoot root,
      fun h₀ => (hroot h₀).trans_le hle⟩
  · exact Or.inr rfl

/-- A full root becomes the child of a new root, and the new root has a middle key. -/
theorem Holds.growRoot {t : Btree} (ht : Params t) {h : ℕ} {l : List ℤ}
    (hn : Holds t h t.root l) (hfull : t.root.keyNum = t.kMaxNum) :
    ∃ children root m c₁ c₂ xa xb,
      put Fault.outOfRange (createNode t false).children 0 (some t.root) = .ok children ∧
      splitChild t { createNode t false with children := children } 0 = .ok root ∧
      Live t root false [m] [some c₁, some c₂] ∧ l = xa ++ m :: xb ∧
      c₁.keyNum = t.kMinNum ∧ c₂.keyNum = t.kMinNum ∧ Holds t h c₁ xa ∧ Holds t h c₂ xb := by
  obtain ⟨lf, Ka, m, Kb, Da, Db, xa, xb, hcl, hKa, hKb, hDa, rfl, hhalves⟩ := hn.halves ht hfull
  obtain ⟨children, root, c₁, c₂, hput, hsplit, hroot, hc₁, hc₂⟩ := hcl.growRoot ht hKa hKb hDa
  obtain ⟨hx₁, hx₂⟩ := hhalves c₁ c₂ hc₁ hc₂
  exact ⟨children, root, m, c₁, c₂, xa, xb, hput, hsplit, hroot, rfl, hc₁.keyNum.trans hKa,
    hc₂.keyNum.trans hKb, hx₁, hx₂⟩

/-- **An insertion of a new key into a valid B-tree** ends in a valid B-tree that has the
key at its sorted place, unless the descent reads outside of an array. -/
theorem btreeInsert_ordered {t : Btree} {l : List ℤ} (hv : Valid t l) {key : ℤ} (hkey : key ∉ l) :
    ∃ N, ∀ fuel ≥ N, (∃ t', btreeInsert fuel t key = .ok t' ∧
      Valid t' (l.orderedInsert (· ≤ ·) key)) ∨ btreeInsert fuel t key = .error .outOfRange := by
  obtain ⟨ht, hs, h, hn, hroot⟩ := hv
  refine ⟨h + 1, fun fuel hfuel => ?_⟩
  by_cases hfull : t.root.keyNum = t.kMaxNum
  · obtain ⟨children, root, m, c₁, c₂, xa, xb, hput, hsplit, hl, rfl, hn₁, hn₂, hx₁, hx₂⟩ :=
      hn.growRoot ht hfull
    have hkm : get Fault.outOfRange root.keys 0 = .ok m := hl.get_head
    have hone : root.keyNum = 1 := hl.keyNum
    -- the key goes to a half of the old root
    have hnone : ∀ P : ℤ → Prop, ∀ a ∈ ([] : List ℤ), P a := by simp
    obtain ⟨c', hc', hins⟩ := Inserts.half (i := 0) ht hl rfl rfl hn₁ hn₂ hx₁ hx₂ Front.nil Back.nil
      (hnone (· < key)) (hnone (key < ·)) hs hkey le_rfl fun c x hc hroom hs hkey =>
        insertNotfull_spec ht hc hroom hs hkey hfuel
    have hside : (if key < m then 0 else 1) = if key > m then 0 + 1 else 0 := by
      have hne : key ≠ m := fun he => hkey (by simp [he])
      split_ifs <;> omega
    have hstep : btreeInsert fuel t key = (insertNotfull t fuel c' key >>= fun child =>
        .ok (root.setChild (if key > m then 0 + 1 else 0) child)) >>= fun root =>
          .ok { t with root := root } := by
      simp only [btreeInsert, hfull, if_true, hput, ok_bind, hsplit, hkm, hside, hc']
      cases insertNotfull t fuel c' key <;> rfl
    rw [hstep]
    have := hins.tree ht (by simpa using hs) fun _ => hone.ge
    simpa using this
  · have hrec := insertNotfull_spec ht hn (lt_of_le_of_ne hn.keyNum_le hfull) hs hkey hfuel
    have hstep : btreeInsert fuel t key = (insertNotfull t fuel t.root key >>= fun root =>
        .ok { t with root := root }) := by
      simp only [btreeInsert, hfull, if_false]
    rw [hstep]
    exact hrec.tree ht hs hroot

/-- `btree_init_tree` makes a valid empty tree for every even order from 4 on. -/
theorem valid_btreeInitTree {order : ℕ} (heven : order % 2 = 0) (hle : 4 ≤ order) :
    Valid (btreeInitTree order) [] := by
  refine ⟨⟨?_, rfl, ?_, ?_⟩, List.Pairwise.nil, 0, ⟨[none], rfl, rfl, ⟨_, rfl⟩,
    List.length_replicate, ⟨List.replicate (order - 1) none, ?_⟩, List.length_replicate, rfl,
    fun _ x hx => (List.mem_replicate.mp hx).2⟩, fun h => absurd rfl h⟩
  · change 1 ≤ (order % 2 + order) / 2 - 1
    omega
  · change order - 1 = 2 * ((order % 2 + order) / 2 - 1) + 1
    omega
  · change order % 2 + order = order - 1 + 1
    omega
  · change List.replicate (order % 2 + order) none = none :: List.replicate (order - 1) none
    rw [← List.replicate_succ]
    exact congrArg (List.replicate · none) (by omega)

end BTree

end BackendStudy
