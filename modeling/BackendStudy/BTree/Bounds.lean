import BackendStudy.BTree.Shape
import BackendStudy.Lib.Runs
import Mathlib.Data.List.DropRight
import Mathlib.Order.Filter.AtTopBot.Basic

/-!
# Insertion within the arrays

With arbitrary keys an insertion can leave the arrays in two ways. At an internal node it
reads the key before the child it has chosen, and there is none where the key is smaller than
all keys of the node and the first child is not split. And a key equal to a key of the node
goes into the child before that key, while it was the child behind it that has been made room
in.

`BackendStudy.BTree.Admits` follows the path of a key down a tree, through the halves of the
children that are split on the way, and says that neither happens. It is decided by the tree
before the insertion, and it is exact (`BackendStudy.BTree.btreeInsert_fits`): an insertion of a new
key into a valid tree completes where it holds (`BackendStudy.BTree.btreeInsert_valid`), and the
runs whose insertions are all admitted are the runs that stay within the arrays
(`BackendStudy.BTree.run_inBounds_iff`).
-/

namespace BackendStudy

namespace BTree

open Slots Multiway Filter

/-! ### The path of a key -/

/-- The keys in use. -/
def BtreeNode.liveKeys (node : BtreeNode) : List ℤ := node.keys.take node.keyNum

/-- The child cells in use. -/
def BtreeNode.liveChildren (node : BtreeNode) : List (Option BtreeNode) :=
  node.children.take (node.keyNum + 1)

/-- The keys of a node up to the last that is not above `key`: the child for `key` is the one
behind them. -/
def frontKeys (key : ℤ) (ks : List ℤ) : List ℤ := ks.rdropWhile (key < ·)

/-- **An insertion of `key` stays within the arrays** below a node of height `h` with the keys
`ks` and the children `ds`. At a leaf there must be room. Above, a full child for `key` is
split, for which the node must have room, and the path goes on in one of its halves; before
a child that is not full there must be a key, and where that is `key` itself the path goes on
in the child before it. -/
def Admits (t : Btree) (key : ℤ) : ℕ → List ℤ → List (Option BtreeNode) → Prop
  | 0, ks, _ => ks.length < t.kMaxNum
  | h + 1, ks, ds => ∃ c, ds[(frontKeys key ks).length]? = some (some c) ∧
      if c.keyNum = t.kMaxNum then
        ks.length < t.kMaxNum ∧
          if c.keys.getD t.kMidIdx 0 < key then
            Admits t key h (c.liveKeys.drop (t.kMidIdx + 1)) (c.liveChildren.drop (t.kMidIdx + 1))
          else Admits t key h (c.liveKeys.take t.kMidIdx) (c.liveChildren.take (t.kMidIdx + 1))
      else
        ∃ k ∈ (frontKeys key ks).getLast?,
          if k < key then Admits t key h c.liveKeys c.liveChildren
          else ∃ l, ds[(frontKeys key ks).length - 1]? = some (some l) ∧
            Admits t key h l.liveKeys l.liveChildren

/-- **The insertion of `key` into a tree stays within the arrays.** A full root is split first,
and there a key equal to the middle one goes to the right. -/
def Fits (t : Btree) (key : ℤ) : Prop :=
  ∃ h, Shaped t (fun _ _ => True) h t.root ∧
    if t.root.keyNum = t.kMaxNum then
      if key < t.root.keys.getD t.kMidIdx 0 then
        Admits t key h (t.root.liveKeys.take t.kMidIdx) (t.root.liveChildren.take (t.kMidIdx + 1))
      else Admits t key h (t.root.liveKeys.drop (t.kMidIdx + 1))
        (t.root.liveChildren.drop (t.kMidIdx + 1))
    else Admits t key h t.root.liveKeys t.root.liveChildren

/-- The nodes of a tree, below a node and by the child cells in use. -/
inductive BtreeNode.Below (node : BtreeNode) : BtreeNode → Prop
  /-- The node. -/
  | refl : BtreeNode.Below node node
  /-- A child. -/
  | child {d c : BtreeNode} : BtreeNode.Below node d → some c ∈ d.liveChildren →
      BtreeNode.Below node c

/-- **Within the arrays**: nothing has been accessed outside of an array, and no node of the
tree holds more keys than its array has cells. -/
def InBounds (t : Btree) (r : Except Fault Btree) : Prop :=
  ∃ t', r = .ok t' ∧ t'.kMaxNum = t.kMaxNum ∧
    ∀ node, t'.root.Below node → node.keyNum ≤ t.kMaxNum ∧ node.keys.length = t.kMaxNum

/-- **One call** of `btree_insert`, on as much fuel as it needs, and its result or its fault. -/
inductive InsertStep : Except Fault Btree → ℤ → Except Fault Btree → Prop
  /-- A call. -/
  | call {t : Btree} {key : ℤ} {r : Except Fault Btree} :
      (∀ᶠ n in atTop, btreeInsert n t key = r) → InsertStep (.ok t) key r

section

variable {t : Btree} {node c l : BtreeNode} {lf lc : Bool} {key m k : ℤ} {h n i : ℕ}
  {ks K₁ K₂ Ka Kb : List ℤ} {ds D₁ D₂ Da Db : List (Option BtreeNode)}

theorem Live.liveKeys_eq (hl : Live t node lf ks ds) : node.liveKeys = ks := by
  obtain ⟨rest, hrest⟩ := hl.keys
  rw [BtreeNode.liveKeys, hrest, hl.keyNum, List.take_left]

theorem Live.liveChildren_eq (hl : Live t node lf ks ds) : node.liveChildren = ds := by
  obtain ⟨rest, hrest⟩ := hl.children
  rw [BtreeNode.liveChildren, hrest, hl.keyNum, ← hl.count, List.take_left]

/-- **The cut of a node at a key.** -/
theorem frontKeys_spec (key : ℤ) (ks : List ℤ) : ∃ K₂, ks = frontKeys key ks ++ K₂ ∧
    (∀ a ∈ (frontKeys key ks).getLast?, a ≤ key) ∧ ∀ b ∈ K₂, key < b := by
  refine ⟨ks.rtakeWhile (key < ·), List.rdropWhile_append_rtakeWhile.symm, fun a ha => ?_,
    fun b hb => by simpa using List.mem_rtakeWhile_imp hb⟩
  obtain ⟨hne, rfl⟩ := List.mem_getLast?_eq_getLast ha
  exact not_lt.mp (by simpa [frontKeys] using List.rdropWhile_last_not (key < ·) ks hne)

/-- A node with the child for a key in its place. -/
theorem exists_child (hcount : ds.length = ks.length + 1) (key : ℤ) :
    ∃ K₂ D₁ d D₂, ks = frontKeys key ks ++ K₂ ∧ ds = D₁ ++ d :: D₂ ∧
      D₁.length = (frontKeys key ks).length ∧ (∀ a ∈ (frontKeys key ks).getLast?, a ≤ key) ∧
      ∀ b ∈ K₂, key < b := by
  obtain ⟨K₂, hks, hfront, hK₂⟩ := frontKeys_spec key ks
  generalize frontKeys key ks = K₁ at *
  have hlt : K₁.length < ds.length := by
    rw [hcount, hks, List.length_append]
    omega
  obtain ⟨D₁, d, D₂, hds, hD⟩ := exists_cut_at hlt
  exact ⟨K₂, D₁, d, D₂, hks, hds, hD, hfront, hK₂⟩

theorem Live.halves_eq (hc : Live t c lc (Ka ++ m :: Kb) (Da ++ Db)) (ht : Params t)
    (hKa : Ka.length = t.kMinNum) (hDa : Da.length = t.kMinNum + 1) :
    c.keys.getD t.kMidIdx 0 = m ∧ c.liveKeys.take t.kMidIdx = Ka ∧
      c.liveKeys.drop (t.kMidIdx + 1) = Kb ∧ c.liveChildren.take (t.kMidIdx + 1) = Da ∧
      c.liveChildren.drop (t.kMidIdx + 1) = Db := by
  obtain ⟨rest, hrest⟩ := hc.keys
  rw [hc.liveKeys_eq, hc.liveChildren_eq, hrest, ht.mid, ← hKa]
  refine ⟨by simp, by simp, by simp, ?_, ?_⟩
  · rw [hKa, ← hDa, List.take_left]
  · rw [hKa, ← hDa, List.drop_left]

/-! ### The condition at one node -/

theorem admits_full (ht : Params t) (hK : frontKeys key ks = K₁) (hD : D₁.length = K₁.length)
    (hc : Live t c lc (Ka ++ m :: Kb) (Da ++ Db)) (hfull : c.keyNum = t.kMaxNum)
    (hKa : Ka.length = t.kMinNum) (hDa : Da.length = t.kMinNum + 1) :
    Admits t key (h + 1) ks (D₁ ++ some c :: D₂) ↔ ks.length < t.kMaxNum ∧
      Admits t key h (if m < key then Kb else Ka) (if m < key then Db else Da) := by
  have hat : (D₁ ++ some c :: D₂)[(frontKeys key ks).length]? = some (some c) := by
    rw [hK, ← hD]
    simp
  obtain ⟨hmid, hKa', hKb', hDa', hDb'⟩ := hc.halves_eq ht hKa hDa
  rw [Admits, hat]
  simp only [Option.some.injEq, exists_eq_left', hfull, if_true, hmid, hKb', hKa', hDb', hDa']
  split_ifs <;> rfl

theorem admits_room (hK : frontKeys key ks = K₁) (hD : D₁.length = K₁.length)
    (hc : Live t c lc Ka Da) (hroom : ¬c.keyNum = t.kMaxNum) :
    Admits t key (h + 1) ks (D₁ ++ some c :: D₂) ↔
      ∃ k ∈ K₁.getLast?, if k < key then Admits t key h Ka Da
        else ∃ l, (D₁ ++ some c :: D₂)[K₁.length - 1]? = some (some l) ∧
          Admits t key h l.liveKeys l.liveChildren := by
  have hat : (D₁ ++ some c :: D₂)[(frontKeys key ks).length]? = some (some c) := by
    rw [hK, ← hD]
    simp
  rw [Admits, hat, hK]
  simp only [Option.some.injEq, exists_eq_left', hroom, if_false, hc.liveKeys_eq,
    hc.liveChildren_eq]

/-- Before a child that is not full there must be a key. -/
theorem not_admits_first (hK : frontKeys key ks = []) (hc : Live t c lc Ka Da)
    (hroom : ¬c.keyNum = t.kMaxNum) : ¬Admits t key (h + 1) ks (some c :: D₂) := by
  rw [← List.nil_append (some c :: D₂), admits_room hK rfl hc hroom]
  simp

/-- Behind a smaller key the path goes on in the child. -/
theorem admits_behind (hK : frontKeys key ks = K₁ ++ [k]) (hD : D₁.length = (K₁ ++ [k]).length)
    (hc : Live t c lc Ka Da) (hroom : ¬c.keyNum = t.kMaxNum) (hk : k < key) :
    Admits t key (h + 1) ks (D₁ ++ some c :: D₂) ↔ Admits t key h Ka Da := by
  rw [admits_room hK hD hc hroom]
  simp [hk]

/-- Behind the key itself the path goes on in the child before it. -/
theorem admits_equal (hK : frontKeys key ks = K₁ ++ [k]) (hD : D₁.length = K₁.length)
    (hl : Live t l lf Kb Db) (hc : Live t c lc Ka Da) (hroom : ¬c.keyNum = t.kMaxNum)
    (hk : ¬k < key) :
    Admits t key (h + 1) ks (D₁ ++ [some l] ++ some c :: D₂) ↔ Admits t key h Kb Db := by
  rw [admits_room hK (by simp [hD]) hc hroom]
  have hat : (D₁ ++ [some l] ++ some c :: D₂)[(K₁ ++ [k]).length - 1]? = some (some l) := by
    simp [← hD]
  simp only [List.getLast?_concat, Option.mem_some_iff, exists_eq_left', hk, if_false, hat,
    Option.some.injEq, hl.liveKeys_eq, hl.liveChildren_eq]

/-! ### A split without room -/

/-- A full node has no room for the middle key of a child. -/
theorem splitChild_full (hp : Live t node false (K₁ ++ K₂) (D₁ ++ some c :: D₂))
    (hD : D₁.length = K₁.length) (hfull : (K₁ ++ K₂).length = t.kMaxNum)
    (hmid : t.kMidIdx < c.keys.length) :
    splitChild t node K₁.length = .error .outOfRange := by
  have hchild : childAt node K₁.length = .ok c := hp.childAt hD.symm
  have hcap := hp.capacity
  have hnum : node.keyNum = K₁.length + K₂.length := by rw [hp.keyNum, List.length_append]
  rw [List.length_append] at hfull
  have hput : ∀ x, put Fault.outOfRange node.keys t.kMaxNum x = .error .outOfRange := by
    intro x
    rw [put, if_neg (by omega)]
  rw [splitChild, if_neg (by omega)]
  rcases List.eq_nil_or_concat K₂ with rfl | ⟨K, k, rfl⟩
  · have hm : get Fault.outOfRange c.keys t.kMidIdx = .ok c.keys[t.kMidIdx] := by
      simp [Slots.get, hmid]
    rw [List.length_nil, Nat.add_zero] at hnum hfull
    rw [hfull] at hchild ⊢
    simp only [hchild, ok_bind, hnum, hfull, Nat.sub_self, forDown, Nat.min_self, hm, hput,
      error_bind]
  · -- the last key does not move up
    rw [List.concat_eq_append, List.length_append, List.length_singleton] at hnum hfull
    have hcount : node.keyNum - K₁.length = K.length + 1 := by omega
    have hget : get Fault.outOfRange node.keys (K₁.length + K.length) = .ok k := by
      have hp' : Live t node false (K₁ ++ K ++ k :: []) (D₁ ++ some c :: D₂) := by simpa using hp
      exact hp'.get_key (by simp)
    have hlast : K₁.length + K.length + 1 = t.kMaxNum := by omega
    simp only [hchild, ok_bind, hcount, forDown, both, up, Nat.add_zero, hget, hlast, hput,
      error_bind]

/-! ### The descent -/

/-- The result of a descent from a node: under the condition `A` a node of the same shape, and
a fault without it. -/
def Settles (t : Btree) (ok : ℕ → BtreeNode → Prop) (h : ℕ) (node : BtreeNode) (A : Prop)
    (res : Except Fault BtreeNode) : Prop :=
  A ∧ (∃ node', res = .ok node' ∧ Shaped t ok h node' ∧ node.keyNum ≤ node'.keyNum) ∨
    ¬A ∧ res = .error .outOfRange

/-- **The descent of an insertion** of `key` from a node of height `h`: on all fuel above the
height it ends in the same way, within the arrays or not as the path of the key says. -/
def InsertsBelow (t : Btree) (ok : ℕ → BtreeNode → Prop) (key : ℤ) (h : ℕ) (node : BtreeNode) :
    Prop :=
  ∃ res, (∀ fuel, h < fuel → insertNotfull t fuel node key = res) ∧
    Settles t ok h node (Admits t key h node.liveKeys node.liveChildren) res

variable {ok : ℕ → BtreeNode → Prop}

/-- The descent into a child of a node, or of what a split has made of the node. -/
theorem Settles.above {node₁ : BtreeNode} {A B : Prop} {res : Except Fault BtreeNode}
    (hrec : Settles t ok h c A res) (hok : Upward t ok)
    (hl : Live t node₁ false ks (D₁ ++ some c :: D₂)) (hi : i = D₁.length)
    (hk : Kids t ok (h + 1) false (D₁ ++ some c :: D₂)) (hnum : node.keyNum ≤ node₁.keyNum)
    (hB : B ↔ A) :
    Settles t ok (h + 1) node B (res >>= fun child => .ok (node₁.setChild i child)) := by
  rcases hrec with ⟨hA, child, rfl, hchild, hle⟩ | ⟨hA, rfl⟩
  · rw [kids_append, kids_cons, kids_some] at hk
    obtain ⟨hk₁, ⟨hc, -⟩, hk₂⟩ := hk
    refine Or.inl ⟨hB.mpr hA, node₁.setChild i child, rfl, (hl.setChild hi child).shaped ?_, hnum⟩
    rw [kids_append, kids_cons, kids_some]
    exact ⟨hk₁, ⟨hok.grow h c child hc hle, hchild⟩, hk₂⟩
  · exact Or.inr ⟨fun hb => hA (hB.mp hb), rfl⟩

/-- The step at an internal node into the child before the one for the key. -/
theorem insertNotfull_equal {fuel : ℕ} (hleaf : node.isLeaf = false)
    (hfind : findChild key node.keys node.keyNum = .ok (i + 1))
    (hchild : childAt node (i + 1) = .ok c) (hroom : ¬c.keyNum = t.kMaxNum)
    (hk : getPred Fault.outOfRange node.keys (i + 1) = .ok k) (hle : ¬key > k)
    (hbefore : childAt node i = .ok l) : insertNotfull t (fuel + 1) node key =
      (insertNotfull t fuel l key >>= fun child => .ok (node.setChild i child)) := by
  simp only [insertNotfull, hleaf, Bool.false_eq_true, if_false, hfind, ok_bind, hchild, hroom, hk,
    hle, Nat.add_sub_cancel, hbefore]

/-- A full leaf has no room for a key. -/
theorem insertNotfull_fullLeaf {fuel : ℕ} (ht : Params t) (hl : Live t node true ks ds)
    (hfull : ks.length = t.kMaxNum) :
    insertNotfull t (fuel + 1) node key = .error .outOfRange := by
  obtain ⟨m, hm⟩ : ∃ m, node.keyNum = m + 1 := by
    have hmax := ht.max
    have hnum := hl.keyNum
    exact ⟨t.kMaxNum - 1, by omega⟩
  have hlen : node.keys.length = m + 1 := by
    rw [hl.capacity, ← hfull, ← hl.keyNum, hm]
  have hget : get Fault.outOfRange node.keys m = .ok node.keys[m] := by simp [Slots.get, hlen]
  have hput : ∀ x, put Fault.outOfRange node.keys (m + 1) x = .error .outOfRange := by
    intro x
    rw [put, if_neg (by omega)]
  simp only [insertNotfull, hl.isLeaf, if_true, hm, insertShift, hget, ok_bind]
  split_ifs
  · simp only [hput, error_bind]
  · simp only [ok_bind, hput, error_bind]

/-- A descent that ends in a fault. -/
theorem InsertsBelow.fault (hA : ¬Admits t key h node.liveKeys node.liveChildren)
    (hres : ∀ fuel, insertNotfull t (fuel + 1) node key = .error .outOfRange) :
    InsertsBelow t ok key h node := by
  refine ⟨.error .outOfRange, fun fuel hfuel => ?_, Or.inr ⟨hA, rfl⟩⟩
  obtain ⟨fuel, rfl⟩ : ∃ f, fuel = f + 1 := ⟨fuel - 1, by omega⟩
  exact hres fuel

/-- A descent that goes on in a child, of the node or of what a split has made of it. -/
theorem InsertsBelow.above {node₁ : BtreeNode} (hrec : InsertsBelow t ok key h c)
    (hok : Upward t ok)
    (hstep : ∀ fuel, insertNotfull t (fuel + 1) node key =
      (insertNotfull t fuel c key >>= fun child => .ok (node₁.setChild i child)))
    (hl : Live t node₁ false ks (D₁ ++ some c :: D₂)) (hi : i = D₁.length)
    (hk : Kids t ok (h + 1) false (D₁ ++ some c :: D₂)) (hnum : node.keyNum ≤ node₁.keyNum)
    (hA : Admits t key (h + 1) node.liveKeys node.liveChildren ↔
      Admits t key h c.liveKeys c.liveChildren) : InsertsBelow t ok key (h + 1) node := by
  obtain ⟨res, hres, hsettles⟩ := hrec
  refine ⟨_, fun fuel hfuel => ?_, hsettles.above hok hl hi hk hnum hA⟩
  obtain ⟨fuel, rfl⟩ : ∃ f, fuel = f + 1 := ⟨fuel - 1, by omega⟩
  rw [hstep, hres fuel (by omega)]

/-- A descent into a half of a split child. -/
theorem InsertsBelow.split (ht : Params t) (hok : Upward t ok)
    (hl : Live t node false (K₁ ++ K₂) (D₁ ++ some c :: D₂))
    (hK : frontKeys key (K₁ ++ K₂) = K₁) (hD : D₁.length = K₁.length)
    (hfind : findChild key node.keys node.keyNum = .ok K₁.length)
    (hk : Kids t ok (h + 1) false (D₁ ++ some c :: D₂)) (hfull : c.keyNum = t.kMaxNum)
    (ih : ∀ c, Shaped t ok h c → InsertsBelow t ok key h c) :
    InsertsBelow t ok key (h + 1) node := by
  rw [kids_append, kids_cons, kids_some] at hk
  obtain ⟨hk₁, ⟨-, hc⟩, hk₂⟩ := hk
  obtain ⟨lf, ks, ds, hcl, hck⟩ := shaped_iff.mp hc
  obtain ⟨Ka, m, Kb, Da, Db, rfl, rfl, hKa, hKb, hDa⟩ := hcl.cut ht hfull
  obtain ⟨hka, hkb⟩ := kids_append.mp hck
  have hchild : childAt node K₁.length = .ok c := hl.childAt hD.symm
  -- what the condition says at this node, through the two halves
  have hA : Admits t key (h + 1) node.liveKeys node.liveChildren ↔
      (K₁ ++ K₂).length < t.kMaxNum ∧
        Admits t key h (if m < key then Kb else Ka) (if m < key then Db else Da) := by
    rw [hl.liveKeys_eq, hl.liveChildren_eq]
    exact admits_full ht hK hD hcl hfull hKa hDa
  by_cases hroom : (K₁ ++ K₂).length < t.kMaxNum
  · rw [and_iff_right hroom] at hA
    obtain ⟨node₁, c₁, c₂, hsplit, hl₁, hc₁, hc₂⟩ :=
      splitChild_spec ht hl rfl hD hroom hcl hKa hKb hDa
    have hk' : Kids t ok (h + 1) false (D₁ ++ some c₁ :: some c₂ :: D₂) := by
      rw [kids_append, kids_cons, kids_some, kids_cons, kids_some]
      exact ⟨hk₁, ⟨hok.half h c₁ (hc₁.keyNum.trans hKa), hc₁.shaped hka⟩,
        ⟨hok.half h c₂ (hc₂.keyNum.trans hKb), hc₂.shaped hkb⟩, hk₂⟩
    have hnum : node.keyNum ≤ node₁.keyNum := by
      rw [hl.keyNum_add hl₁ (n := 1) (by simp; omega)]
      exact Nat.le_succ _
    have hkm : getPred Fault.outOfRange node₁.keys (K₁.length + 1) = .ok m := hl₁.get_key rfl
    -- the new middle key decides between the halves, for the loop and for the condition alike
    by_cases hgt : key > m
    · have hl₂ : Live t node₁ false (K₁ ++ m :: K₂) ((D₁ ++ [some c₁]) ++ some c₂ :: D₂) := by
        simpa using hl₁
      have hc' : childAt node₁ (if key > m then K₁.length + 1 else K₁.length) = .ok c₂ := by
        rw [if_pos hgt]
        exact hl₂.childAt (by simp [hD])
      refine (ih c₂ (hc₂.shaped hkb)).above hok (fun fuel => insertNotfull_split hl.isLeaf hfind
        hchild hfull hsplit hkm hc') hl₂ (by simp [hgt, hD]) (by simpa using hk') hnum ?_
      rw [hA, if_pos hgt, if_pos hgt, hc₂.liveKeys_eq, hc₂.liveChildren_eq]
    · have hc' : childAt node₁ (if key > m then K₁.length + 1 else K₁.length) = .ok c₁ := by
        rw [if_neg hgt]
        exact hl₁.childAt hD.symm
      refine (ih c₁ (hc₁.shaped hka)).above hok (fun fuel => insertNotfull_split hl.isLeaf hfind
        hchild hfull hsplit hkm hc') hl₁ (by simp [hgt, hD]) hk' hnum ?_
      rw [hA, if_neg hgt, if_neg hgt, hc₁.liveKeys_eq, hc₁.liveChildren_eq]
  -- a full node has no cell for the key that comes up from the split
  · refine .fault (fun h => hroom (hA.mp h).1) fun fuel => ?_
    have hmid : t.kMidIdx < c.keys.length := by
      rw [ht.mid, hcl.capacity, ht.max]
      omega
    have hsplit := splitChild_full hl hD (le_antisymm hl.keyNum_le (not_lt.mp hroom)) hmid
    simp only [insertNotfull, hl.isLeaf, Bool.false_eq_true, if_false, hfind, ok_bind, hchild,
      hfull, if_true, hsplit, error_bind]

/-- A descent past a child that is not full: into it, or into the child before it where the key
before it is the key itself. -/
theorem InsertsBelow.room (hok : Upward t ok)
    (hl : Live t node false (K₁ ++ K₂) (D₁ ++ some c :: D₂))
    (hK : frontKeys key (K₁ ++ K₂) = K₁) (hD : D₁.length = K₁.length)
    (hfind : findChild key node.keys node.keyNum = .ok K₁.length)
    (hk : Kids t ok (h + 1) false (D₁ ++ some c :: D₂)) (hroom : ¬c.keyNum = t.kMaxNum)
    (ih : ∀ c, Shaped t ok h c → InsertsBelow t ok key h c) :
    InsertsBelow t ok key (h + 1) node := by
  have hchild : childAt node K₁.length = .ok c := hl.childAt hD.symm
  have hks := hk
  rw [kids_append, kids_cons, kids_some] at hks
  obtain ⟨hk₁, ⟨-, hc⟩, -⟩ := hks
  obtain ⟨lc, kc, dc, hcl, -⟩ := shaped_iff.mp hc
  rcases List.eq_nil_or_concat K₁ with rfl | ⟨K, k, rfl⟩
  · -- there is no key before the first child
    obtain rfl : D₁ = [] := List.length_eq_zero_iff.mp hD
    have hnone : getPred Fault.outOfRange node.keys 0 = .error .outOfRange := rfl
    simp only [List.length_nil] at hfind hchild
    refine .fault ?_ fun fuel => ?_
    · rw [hl.liveKeys_eq, hl.liveChildren_eq]
      exact not_admits_first hK hcl hroom
    · simp only [insertNotfull, hl.isLeaf, Bool.false_eq_true, if_false, hfind, ok_bind, hchild,
        hroom, hnone, error_bind]
  · rw [List.concat_eq_append] at hK hl hD hfind hchild
    obtain ⟨D, d, rfl⟩ := exists_last (show 0 < D₁.length by simp [hD])
    have hD' : D.length = K.length := by simpa using hD
    obtain ⟨l, rfl, -, hlx⟩ := hk₁.2 d (by simp)
    have hl' : Live t node false (K ++ k :: K₂) (D ++ some l :: (some c :: D₂)) := by
      simpa using hl
    have hkm : getPred Fault.outOfRange node.keys (K ++ [k]).length = .ok k := by
      rw [List.length_append]
      exact hl'.get_key rfl
    -- the key before the child is below the new one: the path goes on in the child
    by_cases hgt : k < key
    · refine (ih c hc).above hok (fun fuel => insertNotfull_room hl.isLeaf hfind hchild hroom hkm
        hgt) hl hD.symm hk le_rfl ?_
      rw [hl.liveKeys_eq, hl.liveChildren_eq, hcl.liveKeys_eq, hcl.liveChildren_eq]
      exact admits_behind hK hD hcl hroom hgt
    · -- the key is there, and the child before it has not been looked at
      obtain ⟨ll, kl, dl, hll, -⟩ := shaped_iff.mp hlx
      rw [List.length_append, List.length_singleton] at hfind hchild hkm
      refine (ih l hlx).above hok (fun fuel => insertNotfull_equal hl.isLeaf hfind hchild hroom hkm
        hgt (hl'.childAt hD'.symm)) hl' hD'.symm (by simpa using hk) le_rfl ?_
      rw [hl.liveKeys_eq, hl.liveChildren_eq, hll.liveKeys_eq, hll.liveChildren_eq]
      exact admits_equal hK hD' hll hcl hroom hgt

/-- **An insertion of any key descends below every node.** -/
theorem insertsBelow (ht : Params t) (hok : Upward t ok) (key : ℤ) (hn : Shaped t ok h node) :
    InsertsBelow t ok key h node := by
  induction h generalizing node with
  | zero =>
    obtain ⟨ks, ds, hl⟩ := hn
    by_cases hroom : ks.length < t.kMaxNum
    · obtain ⟨K₂, hks, hfront, hK₂⟩ := frontKeys_spec key ks
      obtain ⟨i, keys, keys', ds', hloop, hput, hl'⟩ :=
        (hks ▸ hl).insert ht (hks ▸ hroom) hfront hK₂
      refine ⟨_, fun fuel hfuel => ?_, Or.inl ⟨hl.liveKeys_eq.symm ▸ hroom, _, rfl,
        ⟨_, ds', hl'⟩, Nat.le_succ _⟩⟩
      obtain ⟨fuel, rfl⟩ : ∃ f, fuel = f + 1 := ⟨fuel - 1, by omega⟩
      simp only [insertNotfull, hl.isLeaf, if_true, hloop, ok_bind, hput]
    · refine .fault ?_ fun fuel => insertNotfull_fullLeaf ht hl
        (le_antisymm hl.keyNum_le (not_lt.mp hroom))
      rw [hl.liveKeys_eq]
      exact hroom
  | succ h ih =>
    obtain ⟨ks, ds, hl, hk⟩ := hn
    obtain ⟨K₂, D₁, d, D₂, hks, rfl, hD, hfront, hK₂⟩ := exists_child hl.count key
    generalize hK : frontKeys key ks = K₁ at *
    subst hks
    obtain ⟨c, rfl, -⟩ := hk d (by simp)
    have hfind : findChild key node.keys node.keyNum = .ok K₁.length := by
      obtain ⟨rest, hrest⟩ := hl.keys
      refine findChild_spec (by rw [hrest, List.append_assoc]) hfront hK₂ ?_
      rw [hl.keyNum, List.length_append]
    by_cases hfull : c.keyNum = t.kMaxNum
    · exact .split ht hok hl hK hD hfind ⟨rfl, hk⟩ hfull fun c hc => ih hc
    · exact .room hok hl hK hD hfind ⟨rfl, hk⟩ hfull fun c hc => ih hc

/-! ### Insertion into a tree -/

theorem fits_iff (hn : Shaped t ok h t.root) : Fits t key ↔
    if t.root.keyNum = t.kMaxNum then
      if key < t.root.keys.getD t.kMidIdx 0 then
        Admits t key h (t.root.liveKeys.take t.kMidIdx) (t.root.liveChildren.take (t.kMidIdx + 1))
      else Admits t key h (t.root.liveKeys.drop (t.kMidIdx + 1))
        (t.root.liveChildren.drop (t.kMidIdx + 1))
    else Admits t key h t.root.liveKeys t.root.liveChildren := by
  constructor
  · rintro ⟨h', hn', hadm⟩
    obtain rfl := hn.height_eq hn'
    exact hadm
  · exact fun hadm => ⟨h, hn.mono fun _ _ _ => trivial, hadm⟩

/-- **An insertion of any key into a tree** ends with a tree where the condition holds, and
leaves the arrays where it does not. -/
theorem btreeInsert_fits (ht : Params t) (hok : Upward t ok) (hn : Shaped t ok h t.root)
    (hroot : h ≠ 0 → 0 < t.root.keyNum) (key : ℤ) :
    ∃ r, (∀ fuel, h < fuel → btreeInsert fuel t key = r) ∧
      (Fits t key ∧ (∃ root h', r = .ok { t with root := root } ∧ Shaped t ok h' root ∧
          (h' ≠ 0 → 0 < root.keyNum)) ∨
        ¬Fits t key ∧ r = .error .outOfRange) := by
  rw [fits_iff hn]
  by_cases hfull : t.root.keyNum = t.kMaxNum
  · obtain ⟨lf, ks, ds, hroot, hck⟩ := shaped_iff.mp hn
    obtain ⟨Ka, m, Kb, Da, Db, rfl, rfl, hKa, hKb, hDa⟩ := hroot.cut ht hfull
    obtain ⟨hka, hkb⟩ := kids_append.mp hck
    obtain ⟨children, root, c₁, c₂, hput, hsplit, hl, hc₁, hc₂⟩ := hroot.growRoot ht hKa hKb hDa
    obtain ⟨hmid, hKa', hKb', hDa', hDb'⟩ := hroot.halves_eq ht hKa hDa
    have hkm : get Fault.outOfRange root.keys 0 = .ok m := hl.get_head
    have hone : root.keyNum = 1 := hl.keyNum
    have hk : Kids t ok (h + 1) false [some c₁, some c₂] := by
      rw [kids_cons, kids_some, kids_some]
      exact ⟨⟨hok.half h c₁ (hc₁.keyNum.trans hKa), hc₁.shaped hka⟩,
        hok.half h c₂ (hc₂.keyNum.trans hKb), hc₂.shaped hkb⟩
    -- the two sides differ in the half that the key goes to
    have hside : ∃ (i : ℕ) (c : BtreeNode), (if key < m then 0 else 1) = i ∧
        childAt root i = .ok c ∧ Shaped t ok h c ∧ ∀ res,
          Settles t ok h c (Admits t key h c.liveKeys c.liveChildren) res →
            Settles t ok (h + 1) root
              (if key < m then Admits t key h Ka Da else Admits t key h Kb Db)
              (res >>= fun child => .ok (root.setChild i child)) := by
      by_cases hlt : key < m
      · have hl' : Live t root false [m] ([] ++ some c₁ :: [some c₂]) := hl
        refine ⟨0, c₁, if_pos hlt, hl'.childAt rfl, hc₁.shaped hka, fun res hres => ?_⟩
        refine hres.above hok hl' rfl hk le_rfl ?_
        rw [if_pos hlt, hc₁.liveKeys_eq, hc₁.liveChildren_eq]
      · have hl' : Live t root false [m] ([some c₁] ++ some c₂ :: []) := hl
        refine ⟨1, c₂, if_neg hlt, hl'.childAt rfl, hc₂.shaped hkb, fun res hres => ?_⟩
        refine hres.above hok hl' rfl hk le_rfl ?_
        rw [if_neg hlt, hc₂.liveKeys_eq, hc₂.liveChildren_eq]
    obtain ⟨i, c, hi, hchild, hc, hsettles⟩ := hside
    obtain ⟨res, hres, hcc⟩ := insertsBelow ht hok key hc
    simp only [hfull, if_true, hmid, hKa', hKb', hDa', hDb']
    refine ⟨res >>= fun child => .ok { t with root := root.setChild i child }, fun fuel hfuel => ?_,
      ?_⟩
    · simp only [btreeInsert, hfull, if_true, hput, ok_bind, hsplit, hkm, hi, hchild,
        hres fuel hfuel]
    · have habove := hsettles res hcc
      cases res with
      | ok child =>
        rcases habove with ⟨hA, root', he, hn', hle⟩ | ⟨-, he⟩
        · obtain rfl := Except.ok.inj he
          exact Or.inl ⟨hA, _, h + 1, rfl, hn', fun _ => by omega⟩
        · exact absurd he (by simp)
      | error e =>
        rcases habove with ⟨-, root', he, -⟩ | ⟨hA, he⟩
        · exact absurd he (by simp)
        · exact Or.inr ⟨hA, congrArg Except.error (Except.error.inj he)⟩
  · simp only [hfull, if_false]
    obtain ⟨res, hres, hsettles⟩ := insertsBelow ht hok key hn
    refine ⟨res >>= fun root => .ok { t with root := root }, fun fuel hfuel => ?_, ?_⟩
    · simp only [btreeInsert, hfull, if_false, hres fuel hfuel]
    · rcases hsettles with ⟨hA, root, rfl, hn', hle⟩ | ⟨hA, rfl⟩
      · exact Or.inl ⟨hA, root, h, rfl, hn', fun h₀ => (hroot h₀).trans_le hle⟩
      · exact Or.inr ⟨hA, rfl⟩

theorem upward_true (t : Btree) : Upward t fun _ _ => True :=
  ⟨fun _ _ _ => trivial, fun _ _ _ _ _ => trivial⟩

/-- **An insertion of a new key into a valid B-tree** ends in a valid B-tree that has the key at its
sorted place where it stays within the arrays, and where it does not it ends with an access out of
range. -/
theorem btreeInsert_valid {l : List ℤ} (hv : Valid t l) (hkey : key ∉ l) :
    (Fits t key → ∃ t', Valid t' (l.orderedInsert (· ≤ ·) key) ∧
      ∀ᶠ fuel in atTop, btreeInsert fuel t key = .ok t') ∧
      (¬Fits t key → ∀ᶠ fuel in atTop, btreeInsert fuel t key = .error .outOfRange) := by
  obtain ⟨N, hN⟩ := btreeInsert_ordered hv hkey
  obtain ⟨ht, -, h, hn, hpos⟩ := hv
  obtain ⟨r, hr, hcase⟩ := btreeInsert_fits ht (upward_true t) (hn.shaped.mono fun _ _ _ => trivial)
    hpos key
  have hends := (eventually_gt_atTop h).mono hr
  rcases hcase with ⟨hfits, root, h', rfl, -⟩ | ⟨hfits, rfl⟩
  · refine ⟨fun _ => ⟨_, ?_, hends⟩, fun hno => absurd hfits hno⟩
    -- on enough fuel for both
    rcases hN (max N (h + 1)) (le_max_left _ _) with ⟨t', hok, hv'⟩ | herr
    · rw [hr _ (lt_of_lt_of_le (Nat.lt_succ_self h) (le_max_right _ _))] at hok
      exact Except.ok.inj hok ▸ hv'
    · rw [hr _ (lt_of_lt_of_le (Nat.lt_succ_self h) (le_max_right _ _))] at herr
      exact nomatch herr
  · exact ⟨fun h => absurd h hfits, fun _ => hends⟩

end

/-- A tree that insertions have made, with a full leaf. -/
def fullLeafTree : Btree :=
  { btreeInitTree 4 with
    root := ⟨[20, 0, 0], [some ⟨[10, 20, 30], [none, none, none, none], 1, true⟩,
      some ⟨[30, 40, 50], [none, none, none, none], 3, true⟩, none, none], 1, false⟩ }

theorem Valid.grow {t : Btree} {l : List ℤ} (hv : Valid t l) (key : ℤ) (t' : Btree)
    (hkey : key ∉ l) (h : ∀ n, btreeInsert (n + 3) t key = .ok t') :
    Valid t' (l.orderedInsert (· ≤ ·) key) := by
  obtain ⟨N, hN⟩ := btreeInsert_ordered hv hkey
  rcases hN (N + 3) (Nat.le_add_right _ _) with ⟨t'', hok, hv'⟩ | herr
  · exact Except.ok.inj ((h N).symm.trans hok) ▸ hv'
  · exact nomatch (h N).symm.trans herr

theorem valid_fullLeafTree : Valid fullLeafTree [10, 20, 30, 40, 50] := by
  have h₁ := (@valid_btreeInitTree 4 rfl le_rfl).grow 10 _ (by decide) fun _ => rfl
  have h₂ := h₁.grow 20 _ (by decide) fun _ => rfl
  have h₃ := h₂.grow 30 _ (by decide) fun _ => rfl
  have h₄ := h₃.grow 40 _ (by decide) fun _ => rfl
  exact h₄.grow 50 _ (by decide) fun _ => rfl

/-- The full leaf is split, and 45 goes into its right half. -/
theorem btreeInsert_valid_sample : ∃ t', Valid t' [10, 20, 30, 40, 45, 50] ∧
    (∀ᶠ fuel in atTop, btreeInsert fuel fullLeafTree 45 = .ok t') ∧
      t'.root.liveKeys = [20, 40] := by
  obtain ⟨hok, herr⟩ := btreeInsert_valid valid_fullLeafTree
    (show 45 ∉ [10, 20, 30, 40, 50] by decide)
  have hends : ∀ n, (btreeInsert (n + 2) fullLeafTree 45).map (·.root.liveKeys) = .ok [20, 40] :=
    fun _ => rfl
  by_cases hfits : Fits fullLeafTree 45
  · obtain ⟨t', hv, hends'⟩ := hok hfits
    obtain ⟨n, hn, hle⟩ := (hends'.and (eventually_ge_atTop 2)).exists
    obtain ⟨m, rfl⟩ : ∃ m, n = m + 2 := ⟨n - 2, by omega⟩
    have hkeys := hends m
    rw [hn] at hkeys
    exact ⟨t', hv, hends', Except.ok.inj hkeys⟩
  · obtain ⟨n, hn, hle⟩ := ((herr hfits).and (eventually_ge_atTop 2)).exists
    obtain ⟨m, rfl⟩ : ∃ m, n = m + 2 := ⟨n - 2, by omega⟩
    have hkeys := hends m
    rw [hn] at hkeys
    exact nomatch hkeys

section

variable {t : Btree} {node c l : BtreeNode} {h : ℕ}

/-- The nodes of a tree are roots of subtrees. -/
theorem Shaped.below {d : BtreeNode} (hn : Shaped t ok h node) (hd : node.Below d) :
    ∃ h', Shaped t ok h' d := by
  induction hd with
  | refl => exact ⟨h, hn⟩
  | @child d c _ hmem ih =>
    obtain ⟨h', hd⟩ := ih
    cases h' with
    | zero =>
      obtain ⟨ks, ds, hl⟩ := hd
      rw [hl.liveChildren_eq] at hmem
      exact absurd (hl.ds_null rfl _ hmem) (by simp)
    | succ h' =>
      obtain ⟨ks, ds, hl, hk⟩ := hd
      rw [hl.liveChildren_eq] at hmem
      obtain ⟨c', he, -, hc⟩ := hk _ hmem
      obtain rfl := Option.some.inj he
      exact ⟨h', hc⟩

end

/-! ### Runs of insertions -/

/-- **An insertion that stays within the arrays**, as a condition on the state before it. -/
def Admitted (r : Except Fault Btree) (key : ℤ) : Prop := ∀ t, r = .ok t → Fits t key

/-- The invariant of a run: what is no fault is a tree, with the numbers it was made with. -/
def Sound (t₀ : Btree) (r : Except Fault Btree) : Prop :=
  ∀ t, r = .ok t → Params t ∧ t.kMaxNum = t₀.kMaxNum ∧
    ∃ h, Shaped t (fun _ _ => True) h t.root ∧ (h ≠ 0 → 0 < t.root.keyNum)

section

variable {t₀ : Btree} {r r' : Except Fault Btree} {key : ℤ}

/-- **One insertion into a tree.** -/
theorem Sound.step (h : Sound t₀ r) (hstep : InsertStep r key r') :
    Sound t₀ r' ∧ (Admitted r key ↔ InBounds t₀ r') := by
  cases hstep with
  | @call t _ _ hret =>
    obtain ⟨ht, hmax, height, hn, hpos⟩ := h t rfl
    obtain ⟨res, hres, hcase⟩ := btreeInsert_fits ht (upward_true t) hn hpos key
    obtain rfl : res = r' := by
      obtain ⟨n, hn, hlt⟩ := (hret.and (eventually_gt_atTop height)).exists
      exact (hres n hlt).symm.trans hn
    rcases hcase with ⟨hfits, root, h', rfl, hroot, hpos'⟩ | ⟨hfits, rfl⟩
    · have hroot' := hroot.withRoot root
      refine ⟨?_, iff_of_true ?_ ⟨_, rfl, hmax, fun node hnode => ?_⟩⟩
      · intro t' he
        obtain rfl := Except.ok.inj he
        exact ⟨ht.withRoot root, hmax, h', hroot', hpos'⟩
      · intro t' he
        obtain rfl := Except.ok.inj he
        exact hfits
      · obtain ⟨h'', hnode⟩ := hroot'.below hnode
        obtain ⟨lf, ks, ds, hl, -⟩ := shaped_iff.mp hnode
        exact ⟨hnode.keyNum_le.trans hmax.le, hl.capacity.trans hmax⟩
    · refine ⟨fun t' he => absurd he (by simp), iff_of_false (fun hadm => hfits (hadm t rfl)) ?_⟩
      rintro ⟨t', he, -⟩
      exact absurd he (by simp)

theorem shaped_btreeInitTree {ok : ℕ → BtreeNode → Prop} {order : ℕ} (heven : order % 2 = 0)
    (hle : 4 ≤ order) : Params (btreeInitTree order) ∧
      Shaped (btreeInitTree order) ok 0 (btreeInitTree order).root := by
  obtain ⟨ht, -, h, hn, -⟩ := valid_btreeInitTree heven hle
  obtain ⟨lf, ks, ds, hl, hk⟩ := shaped_iff.mp hn.shaped
  obtain rfl : lf = true := hl.isLeaf.symm
  exact ⟨ht, ks, ds, hl⟩

/-- **Insertion stays within the arrays** over exactly the runs whose insertions are admitted,
and every insertion into a tree of such a run ends. -/
theorem run_inBounds_iff {order : ℕ} {keys : List ℤ} (heven : order % 2 = 0) (hle : 4 ≤ order) :
    (Runs.Run (Runs.guard Admitted InsertStep) (.ok (btreeInitTree order)) keys r ↔
      Runs.Run (Runs.keeping (InBounds (btreeInitTree order)) InsertStep)
        (.ok (btreeInitTree order)) keys r) ∧
      (Runs.Run (Runs.guard Admitted InsertStep) (.ok (btreeInitTree order)) keys r →
        ∀ key, ∃ r', InsertStep r key r') := by
  obtain ⟨ht, hn⟩ := @shaped_btreeInitTree (fun _ _ => True) order heven hle
  have h₀ : Sound (btreeInitTree order) (.ok (btreeInitTree order)) := by
    rintro t he
    obtain rfl := Except.ok.inj he
    exact ⟨ht, rfl, 0, hn, fun h => absurd rfl h⟩
  have hbounds : InBounds (btreeInitTree order) (.ok (btreeInitTree order)) := by
    refine ⟨_, rfl, rfl, fun node hnode => ?_⟩
    obtain ⟨h', hnode⟩ := hn.below hnode
    obtain ⟨lf, ks, ds, hl, -⟩ := shaped_iff.mp hnode
    exact ⟨hnode.keyNum_le, hl.capacity⟩
  have hiff := @Runs.run_guard_iff _ _ InsertStep _ r keys Admitted (InBounds (btreeInitTree order))
    (Sound (btreeInitTree order)) h₀ hbounds (fun _ _ _ hs hstep => (hs.step hstep).1)
    fun _ _ _ hs _ hstep => (hs.step hstep).2
  refine ⟨hiff, fun hrun key => ?_⟩
  have hsound : Sound (btreeInitTree order) r :=
    hrun.invariant h₀ fun _ _ _ hs hstep => (hs.step hstep.2).1
  obtain ⟨t, rfl⟩ : ∃ t, r = .ok t := by
    cases hiff.mp hrun with
    | nil => exact ⟨_, rfl⟩
    | snoc _ hs =>
      obtain ⟨t, rfl, -⟩ := hs.2
      exact ⟨t, rfl⟩
  obtain ⟨ht', -, h', hn', hpos'⟩ := hsound t rfl
  obtain ⟨res, hres, -⟩ := btreeInsert_fits ht' (upward_true t) hn' hpos' key
  exact ⟨res, .call ((eventually_gt_atTop h').mono hres)⟩

end

/-- An insertion that ends with a tree is admitted. -/
theorem Sound.grow {t₀ t : Btree} (h : Sound t₀ (.ok t)) (key : ℤ) (t' : Btree)
    (hrun : ∀ n, btreeInsert (n + 3) t key = .ok t') :
    (Admitted (.ok t) key ∧ InsertStep (.ok t) key (.ok t')) ∧ Sound t₀ (.ok t') := by
  have hstep : InsertStep (.ok t) key (.ok t') := by
    refine .call (eventually_atTop.mpr ⟨3, fun n hn => ?_⟩)
    obtain ⟨m, rfl⟩ : ∃ m, n = m + 3 := ⟨n - 3, by omega⟩
    exact hrun m
  refine ⟨⟨fun t₁ he => ?_, hstep⟩, (h.step hstep).1⟩
  obtain rfl := Except.ok.inj he
  obtain ⟨ht, -, height, hn, hpos⟩ := h _ rfl
  obtain ⟨r, hr, ⟨hfits, -⟩ | ⟨-, rfl⟩⟩ := btreeInsert_fits ht (upward_true t) hn hpos key
  · exact hfits
  · exact nomatch (hr (height + 3) (by omega)).symm.trans (hrun height)

/-- The root is split at 40 and its right leaf at 45; the second 20 goes to the left leaf. -/
theorem run_inBounds_iff_sample : ∃ t,
    Runs.Run (Runs.keeping (InBounds (btreeInitTree 4)) InsertStep) (.ok (btreeInitTree 4))
      [10, 20, 30, 40, 50, 45, 20] (.ok t) ∧ t.root.liveKeys = [20, 40] := by
  have h₀ : Sound (btreeInitTree 4) (.ok (btreeInitTree 4)) := by
    rintro t he
    obtain rfl := Except.ok.inj he
    obtain ⟨ht, hn⟩ := @shaped_btreeInitTree (fun _ _ => True) 4 rfl le_rfl
    exact ⟨ht, rfl, 0, hn, fun h => absurd rfl h⟩
  obtain ⟨s₁, h₁⟩ := h₀.grow 10 _ fun _ => rfl
  obtain ⟨s₂, h₂⟩ := h₁.grow 20 _ fun _ => rfl
  obtain ⟨s₃, h₃⟩ := h₂.grow 30 _ fun _ => rfl
  obtain ⟨s₄, h₄⟩ := h₃.grow 40 _ fun _ => rfl
  obtain ⟨s₅, h₅⟩ := h₄.grow 50 _ fun _ => rfl
  obtain ⟨s₆, h₆⟩ := h₅.grow 45 _ fun _ => rfl
  obtain ⟨s₇, -⟩ := h₆.grow 20 _ fun _ => rfl
  exact ⟨_, (run_inBounds_iff rfl le_rfl).1.mp
    (((((((Runs.Run.nil.snoc s₁).snoc s₂).snoc s₃).snoc s₄).snoc s₅).snoc s₆).snoc s₇), rfl⟩

/-- **The two ways out of the arrays**, in a tree of order 4: a key smaller than all others, and
a key that has filled the child before it. -/
theorem not_inBounds_sample :
    (∀ n ≥ 3, [1, 2, 3, 4, 0].foldlM (btreeInsert n) (btreeInitTree 4) = .error .outOfRange) ∧
      ∀ n ≥ 3, [1, 2, 3, 4, 2, 2, 2].foldlM (btreeInsert n) (btreeInitTree 4) =
        .error .outOfRange := by
  refine ⟨fun n hn => ?_, fun n hn => ?_⟩
  · obtain ⟨m, rfl⟩ : ∃ m, n = m + 3 := ⟨n - 3, by omega⟩
    rfl
  · obtain ⟨m, rfl⟩ : ∃ m, n = m + 3 := ⟨n - 3, by omega⟩
    rfl

end BTree

end BackendStudy
