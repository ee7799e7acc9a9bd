import BackendStudy.RbTree.Delete
import Mathlib.Logic.Equiv.Basic

/-!
# Deleting a node

`RBT_deleteNode` exchanges the contents of the target with those of its successor in
the order, splices the successor out, and repairs the colours. The nodes themselves do
not move, so the order of the tree afterwards is best read through the exchange: it is
the old order without the target once the two nodes are exchanged back
(`BackendStudy.RbTree.deleteNode_spec`). That the keys stay in order is then immediate.

Whether the tree is red-black again depends on the climb alone, and
`BackendStudy.RbTree.DeleteBreaks` says so of the memory before the call.
-/

namespace BackendStudy

namespace RbTree

open RbtColor PTree

variable {P V : Type*} [DecidableEq P]

/-! ### Going to the successor -/

omit [DecidableEq P] in
theorem Focus.left_eq_nil {t : RbtTree P V} {ctx : List (Frame P)} {l r : PTree P} {x : P}
    {c : RbtColor} (h : Focus t ctx (node l x c r)) : t.left x = t.nil ↔ l = leaf := by
  obtain ⟨-, -, hl, -, -, hhl, -⟩ := h.tree
  rw [hl]
  cases l with
  | leaf => simp
  | node l' q c' r' => simpa using hhl.1

omit [DecidableEq P] in
theorem Focus.right_eq_nil {t : RbtTree P V} {ctx : List (Frame P)} {l r : PTree P} {x : P}
    {c : RbtColor} (h : Focus t ctx (node l x c r)) : t.right x = t.nil ↔ r = leaf := by
  obtain ⟨-, -, -, hr, -, -, hhr⟩ := h.tree
  rw [hr]
  cases r with
  | leaf => simp
  | node l' q c' r' => simpa using hhr.1

/-- The loop of `_getSuccessor` ends at the first node of a subtree. -/
theorem leftmost_spec {t : RbtTree P V} {ctx : List (Frame P)} {l r : PTree P} {x : P}
    {c : RbtColor} (h : Focus t ctx (node l x c r)) :
    ∃ y ctx' cy ry, Loop.Returns (fun n => Loop.run (leftmostStep t) n x) y ∧
      plug ctx (node l x c r) = plug ctx' (node leaf y cy ry) ∧ before ctx' = before ctx := by
  induction l generalizing ctx x c r with
  | leaf =>
    refine ⟨x, ctx, c, r, Loop.returns_run_inr ?_, rfl, rfl⟩
    simp [leftmostStep, h.left_eq_nil.mpr rfl]
  | node l' q c' r' ih _ =>
    have hl : Focus t (.left x c r :: ctx) (node l' q c' r') := focus_cons.mpr h
    obtain ⟨y, ctx', cy, ry, hret, hplug, hbef⟩ := ih hl
    refine ⟨y, ctx', cy, ry, Loop.returns_run_inl ?_ hret, hplug, hbef⟩
    have hq : t.left x = q := h.tree.2.2.1
    have hne : ¬t.left x = t.nil := mt h.left_eq_nil.mp (by simp)
    rw [leftmostStep, if_pos hne, hq]

/-- **The successor of a node** with a child is the node itself when it has no right
child, and otherwise the next node in the order. Either way it has at most one child. -/
theorem getSuccessor_spec {t : RbtTree P V} {ctx : List (Frame P)} {l r : PTree P} {x : P}
    {c : RbtColor} (h : Focus t ctx (node l x c r)) :
    ∃ y ctx' l' cy r', Loop.Returns (fun n => getSuccessor n t x) y ∧
      plug ctx (node l x c r) = plug ctx' (node l' y cy r') ∧ (l' = leaf ∨ r' = leaf) ∧
      (y = x ∨ before ctx' ++ l'.ptrs = (before ctx ++ l.ptrs) ++ [x]) := by
  by_cases hr : r = leaf
  · refine ⟨x, ctx, l, c, r, (Loop.returns_pure x).congr fun n => ?_, rfl, Or.inr hr, Or.inl rfl⟩
    rw [getSuccessor, if_neg (not_not.mpr (h.right_eq_nil.mpr hr))]
  · obtain ⟨l₁, q, c₁, r₁, rfl⟩ : ∃ l q c r', r = node l q c r' := by
      cases r with
      | leaf => exact absurd rfl hr
      | node l q c r' => exact ⟨l, q, c, r', rfl⟩
    have hq : t.right x = q := h.tree.2.2.2.1
    have hr' : Focus t (.right l x c :: ctx) (node l₁ q c₁ r₁) := focus_cons.mpr h
    obtain ⟨y, ctx', cy, ry, hret, hplug, hbef⟩ := leftmost_spec hr'
    refine ⟨y, ctx', leaf, cy, ry, hret.congr fun n => ?_, hplug, Or.inl rfl, Or.inr ?_⟩
    · rw [getSuccessor, if_pos (mt h.right_eq_nil.mp hr), hq]
    · simp [hbef, before]

/-! ### Exchanging the contents -/

/-- **The callback exchanges exactly the payloads** of the two nodes it is given. -/
def Exchanges (t : RbtTree P V) : Prop := ∀ p q d, t.swapData p q d = d ∘ Equiv.swap p q

theorem swapNode_key (t : RbtTree P V) (p q : P) :
    (swapNode t p q).key = t.key ∘ Equiv.swap p q := by
  funext x
  change Function.update (Function.update t.key p (t.key q)) q (t.key p) x = _
  by_cases hq : x = q
  · simp [hq]
  · by_cases hp : x = p
    · subst hp
      simp [hq]
    · simp [hp, hq, Equiv.swap_apply_of_ne_of_ne hp hq]

/-- An exchange of contents is not seen by the shape. -/
theorem Focus.swapNode {t : RbtTree P V} {ctx : List (Frame P)} {T : PTree P} (h : Focus t ctx T)
    (p q : P) : Focus (swapNode t p q) ctx T :=
  h.congr rfl rfl fun _ _ => ⟨rfl, rfl, rfl, rfl⟩

/-! ### Splicing out -/

/-- The child that takes the place of a node with at most one child. -/
def onlyChild (t : RbtTree P V) (target : P) : P :=
  if t.left target ≠ t.nil then t.left target
  else if t.right target ≠ t.nil then t.right target
  else t.nil

/-- The assignments that put `s` in the place of `target`. -/
def unlink (t : RbtTree P V) (target s : P) : RbtTree P V :=
  (relinkLeft (t.setParent s (t.parent target)) (t.parent target) target s).setColor s black

section Splice

variable {t : RbtTree P V} {ctx : List (Frame P)} {l r : PTree P} {x s : P} {c : RbtColor}

/-- `spliceOut`, in two steps: the links, and the loop that repairs the colours. -/
theorem spliceOut_eq (n : ℕ) : spliceOut n t x =
    if onlyChild t x = t.nil ∧ (unlink t x (onlyChild t x)).color x = black then
      (adjustAfterDelete n (unlink t x (onlyChild t x)) (onlyChild t x)).map fun t => (t, x)
    else some (unlink t x (onlyChild t x), x) := by
  have hnil : (unlink t x (onlyChild t x)).nil = t.nil := relinkLeft_nil
  rw [← hnil]
  rfl

theorem sameKeys_unlink : SameKeys t (unlink t x s) := by
  constructor <;> · dsimp only [unlink, relinkLeft]; split_ifs <;> rfl

theorem unlink_parent : (unlink t x s).parent s = t.parent x := by
  rw [unlink, setColor_parent, relinkLeft_parent]
  exact Function.update_self _ _ _

theorem unlink_color_of_ne {q : P} (hq : q ≠ s) : (unlink t x s).color q = t.color q := by
  rw [unlink, setColor_color_of_ne hq, relinkLeft_color]
  rfl

/-- **The place of the node is taken** by a node that is not around it. -/
theorem HoldsCtx.unlink (h : Focus t ctx (node l x c r)) (hs : s ∉ before ctx ++ after ctx) :
    HoldsCtx (unlink t x s) s ctx := by
  obtain ⟨hx, hpar, -⟩ := h.tree
  have h₁ : HoldsCtx (t.setParent s (ctxPtr t.nil ctx)) x ctx := by
    refine h.outer.congr rfl rfl fun q hq => ⟨Function.update_of_ne ?_ _ _, rfl, rfl, rfl⟩
    rintro rfl
    exact hs hq
  have h₂ := h₁.relinkLeft hx (h.notMem_ctx (by simp)) h.nodup_ctx s
  rw [RbTree.unlink, hpar]
  refine h₂.congr rfl rfl fun q hq => sameAt_setColor ?_
  rintro rfl
  exact hs hq

/-- A spliced-out leaf is replaced by the sentinel. -/
theorem Focus.unlink_leaf (h : Focus t ctx (node leaf x c leaf)) :
    Focus (unlink t x t.nil) ctx leaf := by
  have hnil : (unlink t x t.nil).nil = t.nil := sameKeys_unlink.nil
  refine ⟨?_, trivial, ?_⟩
  · rw [ptr_leaf, hnil]
    exact HoldsCtx.unlink h fun hm => Holds.ctx_ne_nil h.outer hm rfl
  · rw [plug_ptrs]
    exact h.nodup_ctx

/-- A spliced-out node with one child is replaced by this child, coloured black. -/
theorem Focus.unlink_child {z : P} {cz : RbtColor} (h : Focus t ctx (node l x c r))
    (hlr : l = node leaf z cz leaf ∧ r = leaf ∨ l = leaf ∧ r = node leaf z cz leaf) :
    Focus (unlink t x z) ctx (node leaf z black leaf) := by
  have hzmem : z ∈ (node l x c r).ptrs := by
    rcases hlr with ⟨rfl, rfl⟩ | ⟨rfl, rfl⟩ <;> simp
  have hpar : t.parent x = ctxPtr t.nil ctx := h.tree.2.1
  have hzp : z ≠ t.parent x := by
    rw [hpar]
    exact h.ne_ctxPtr hzmem
  have hz : z ≠ t.nil ∧ t.left z = t.nil ∧ t.right z = t.nil := by
    obtain ⟨-, -, -, -, -, hl, hr⟩ := h.tree
    rcases hlr with ⟨rfl, rfl⟩ | ⟨rfl, rfl⟩
    · exact ⟨hl.1, hl.2.2.1, hl.2.2.2.1⟩
    · exact ⟨hr.1, hr.2.2.1, hr.2.2.2.1⟩
  have hnil : (RbTree.unlink t x z).nil = t.nil := sameKeys_unlink.nil
  refine ⟨HoldsCtx.unlink h (h.notMem_ctx hzmem), ?_, ?_⟩
  · rw [hnil]
    refine ⟨by rw [hnil]; exact hz.1, unlink_parent.trans hpar, ?_, ?_, ?_, trivial, trivial⟩
    · rw [ptr_leaf, hnil]
      exact (relinkLeft_left hzp).trans hz.2.1
    · rw [ptr_leaf, hnil]
      exact (relinkLeft_right hzp).trans hz.2.2
    · exact setColor_color_self
  · rw [plug_ptrs]
    exact List.nodup_middle.mpr (List.nodup_cons.mpr ⟨h.notMem_ctx hzmem, h.nodup_ctx⟩)

omit [DecidableEq P] in
/-- In a balanced tree the only child of a node is a red leaf below a black node. -/
theorem Balanced.only_child {S : PTree P} {n : ℕ} (hS : S ≠ leaf)
    (hl : (node S x c leaf).Balanced n ∨ (node leaf x c S).Balanced n) :
    c = black ∧ n = 1 ∧ ∃ z, S = node leaf z red leaf := by
  -- without a black node below it a tree is a red node without children
  have hzero : ∀ {U : PTree P}, U ≠ leaf → U.Balanced 0 → ∃ u z w, U = node u z red w ∧
      u = leaf ∧ w = leaf := by
    intro U hU hbal
    rcases U with _ | ⟨u, z, cz, w⟩
    · exact absurd rfl hU
    cases cz with
    | black =>
      obtain ⟨m, hm, -⟩ := hbal
      omega
    | red =>
      obtain ⟨hu, hw, hbu, hbw⟩ := hbal
      refine ⟨u, z, w, rfl, ?_, ?_⟩
      · rcases u with _ | ⟨_, _, _ | _, _⟩
        · rfl
        · exact absurd hu (by simp)
        · obtain ⟨m, hm, -⟩ := hbu
          omega
      · rcases w with _ | ⟨_, _, _ | _, _⟩
        · rfl
        · exact absurd hw (by simp)
        · obtain ⟨m, hm, -⟩ := hbw
          omega
  -- below a red node the child is black and so not there
  cases c with
  | red =>
    have hSb : S.rootColor = black ∧ S.Balanced 0 := by
      rcases hl with ⟨hc, -, hb, hn⟩ | ⟨-, hc, hn, hb⟩
      · obtain rfl : n = 0 := hn
        exact ⟨hc, hb⟩
      · obtain rfl : n = 0 := hn
        exact ⟨hc, hb⟩
    obtain ⟨u, z, w, rfl, -⟩ := hzero hS hSb.2
    exact absurd hSb.1 (by simp)
  | black =>
    have hSb : n = 1 ∧ S.Balanced 0 := by
      rcases hl with ⟨m, rfl, hb, hm⟩ | ⟨m, rfl, hm, hb⟩
      · obtain rfl : m = 0 := hm
        exact ⟨rfl, hb⟩
      · obtain rfl : m = 0 := hm
        exact ⟨rfl, hb⟩
    obtain ⟨u, z, w, rfl, rfl, rfl⟩ := hzero hS hSb.2
    exact ⟨rfl, hSb.1, z, rfl⟩

omit [DecidableEq P] in
/-- A black leaf is one node high. -/
theorem Balanced.black_leaf {n : ℕ} (h : (node leaf x black leaf).Balanced n) : n = 1 := by
  obtain ⟨m, rfl, hm, -⟩ := h
  obtain rfl : m = 0 := hm
  rfl

/-- The repair starts in a state of its invariant when a black leaf has been unlinked. -/
theorem Focus.deleteState (h : Focus t ctx (node leaf x black leaf))
    (hbal : ∃ n, (node leaf x black leaf).Balanced n ∧ Fits ctx black n) :
    DeleteState (unlink t x t.nil) ctx leaf 0 := by
  obtain ⟨n, hn, hfit⟩ := hbal
  obtain rfl := Balanced.black_leaf hn
  have hnil : (unlink t x t.nil).nil = t.nil := sameKeys_unlink.nil
  refine ⟨h.unlink_leaf, ?_, ?_, rfl, rfl, hfit⟩
  · rw [ptr_leaf, hnil]
    exact unlink_parent.trans h.tree.2.1
  · rw [hnil]
    exact setColor_color_self

/-- **Splicing out a node with at most one child** takes it out of the order, and the
tree is red-black again unless a black leaf was taken out from where the climb breaks
the tree. -/
theorem spliceOut_spec (h : Focus t ctx (node l x c r)) (hnil : t.color t.nil = black)
    (hbal : ∃ n, (node l x c r).Balanced n ∧ Fits ctx c n) (hlr : l = leaf ∨ r = leaf) :
    ∃ t' T', Loop.Returns (fun n => spliceOut n t x) (t', x) ∧ Represents t' T' ∧
      t'.color t'.nil = black ∧ SameKeys t t' ∧
      T'.ptrs = (before ctx ++ l.ptrs) ++ (r.ptrs ++ after ctx) ∧
      ((T'.rootColor = black ∧ ∃ n, T'.Balanced n) ↔
        ¬(l = leaf ∧ r = leaf ∧ c = black ∧ Breaks ctx)) := by
  obtain ⟨n, hn, hfit⟩ := hbal
  have hx : x ≠ t.nil := h.tree.1
  by_cases hleaf : l = leaf ∧ r = leaf
  · obtain ⟨rfl, rfl⟩ := hleaf
    have hs : onlyChild t x = t.nil := by
      simp [onlyChild, h.left_eq_nil.mpr rfl, h.right_eq_nil.mpr rfl]
    have hfoc := h.unlink_leaf
    have hnil' : (unlink t x t.nil).nil = t.nil := sameKeys_unlink.nil
    have hb' : (unlink t x t.nil).color (unlink t x t.nil).nil = black := by
      rw [hnil']
      exact setColor_color_self
    have hcx : (unlink t x t.nil).color x = c :=
      (unlink_color_of_ne hx).trans h.tree.2.2.2.2.1
    -- a red node is spliced out without further ado, a black one is repaired for
    cases c with
    | red =>
      obtain rfl : n = 0 := hn.2.2.1
      have hok := balanced_plug.mpr ⟨0, balanced_leaf.mpr rfl, hfit.black⟩
      refine ⟨unlink t x t.nil, plug ctx leaf, (Loop.returns_pure _).congr fun n => ?_,
        focus_iff.mp hfoc, hb', sameKeys_unlink, by simp [plug_ptrs],
        iff_of_true hok (by simp)⟩
      rw [spliceOut_eq, hs, hcx, if_neg (by simp)]
    | black =>
      have hstate : DeleteState (unlink t x t.nil) ctx leaf 0 := h.deleteState ⟨n, hn, hfit⟩
      obtain ⟨t', T', hret, hrep, hnil'', hk, hp, hok⟩ := adjustAfterDelete_spec hstate
      refine ⟨t', T', (hret.map fun t => (t, x)).congr fun n => ?_, hrep, hnil'',
        sameKeys_unlink.trans hk, ?_, hok.trans (by simp)⟩
      · rw [spliceOut_eq, hs, hcx, if_pos ⟨rfl, rfl⟩, ptr_leaf, hnil']
      · simpa [plug_ptrs] using hp
  · -- the child is a red leaf, so colouring it black makes up for the black node
    obtain ⟨S, hS, hSlr⟩ : ∃ S, S ≠ leaf ∧ (l = S ∧ r = leaf ∨ l = leaf ∧ r = S) := by
      rcases hlr with rfl | rfl
      · exact ⟨r, fun hr => hleaf ⟨rfl, hr⟩, Or.inr ⟨rfl, rfl⟩⟩
      · exact ⟨l, fun hl => hleaf ⟨hl, rfl⟩, Or.inl ⟨rfl, rfl⟩⟩
    obtain ⟨rfl, rfl, z, rfl⟩ := Balanced.only_child (c := c) (n := n) (x := x) hS
      (by rcases hSlr with ⟨rfl, rfl⟩ | ⟨rfl, rfl⟩ <;> simp [hn])
    have hs : onlyChild t x = z := by
      obtain ⟨-, -, hl, hr, -, hhl, hhr⟩ := h.tree
      rcases hSlr with ⟨rfl, rfl⟩ | ⟨rfl, rfl⟩
      · have hz : t.left x = z := hl
        rw [onlyChild, hz, if_pos hhl.1]
      · have hz : t.right x = z := hr
        have hl' : t.left x = t.nil := hl
        rw [onlyChild, hl', if_neg (not_not.mpr rfl), hz, if_pos hhr.1]
    have hz : z ≠ t.nil := h.tree.ne_nil (by rcases hSlr with ⟨rfl, rfl⟩ | ⟨rfl, rfl⟩ <;> simp)
    have hfoc : Focus (unlink t x z) ctx (node leaf z black leaf) := h.unlink_child hSlr
    have hok := balanced_plug.mpr ⟨1, show (node leaf z black leaf).Balanced 1 from
      balanced_black_succ.mpr ⟨rfl, rfl⟩, hfit⟩
    refine ⟨unlink t x z, plug ctx (node leaf z black leaf), (Loop.returns_pure _).congr
      fun n => ?_, focus_iff.mp hfoc, ?_, sameKeys_unlink, ?_,
      iff_of_true hok fun hbr => hleaf ⟨hbr.1, hbr.2.1⟩⟩
    · rw [spliceOut_eq, hs, if_neg fun hc => hz hc.1]
    · rw [sameKeys_unlink.nil, unlink_color_of_ne (Ne.symm hz), hnil]
    · rcases hSlr with ⟨rfl, rfl⟩ | ⟨rfl, rfl⟩ <;> simp [plug_ptrs]

end Splice

/-! ### The whole deletion -/

/-- **The deletion of `target` breaks the tree**: the node it splices out is a black
leaf, and the climb from there meets a red sibling whose inner child has a red child. -/
def DeleteBreaks (t : RbtTree P V) (target : P) : Prop :=
  ∃ n y, getSuccessor n t target = some y ∧ t.left y = t.nil ∧ t.right y = t.nil ∧
    t.color y = black ∧ ShortcutBreaks t y

theorem stable_getSuccessor (t : RbtTree P V) (x : P) :
    Loop.Stable fun n => getSuccessor n t x :=
  (Loop.stable_run _ _).ite (Loop.stable_const _)

/-- The condition on the memory, at the node the deletion splices out. -/
theorem deleteBreaks_iff {t : RbtTree P V} {ctx : List (Frame P)} {l r : PTree P} {x y : P}
    {c : RbtColor} (hret : Loop.Returns (fun n => getSuccessor n t x) y)
    (h : Focus t ctx (node l y c r)) (hnil : t.color t.nil = black)
    (hbal : ∃ n, (node l y c r).Balanced n ∧ Fits ctx c n) :
    DeleteBreaks t x ↔ l = leaf ∧ r = leaf ∧ c = black ∧ Breaks ctx := by
  have hcy : t.color y = c := h.tree.2.2.2.2.1
  have hbreaks : l = leaf → c = black → (ShortcutBreaks t y ↔ Breaks ctx) := by
    rintro rfl rfl
    obtain ⟨n, ⟨m, rfl, hm, -⟩, hfit⟩ := hbal
    exact shortcutBreaks_iff h (by simp) hnil hfit
  constructor
  · rintro ⟨n, y', hy', hl, hr, hc, hb⟩
    obtain rfl : y' = y := ((stable_getSuccessor t x).returns hy').unique hret
    have hl' := h.left_eq_nil.mp hl
    have hc' : c = black := hcy.symm.trans hc
    exact ⟨hl', h.right_eq_nil.mp hr, hc', (hbreaks hl' hc').mp hb⟩
  · rintro ⟨hl, hr, hc, hb⟩
    obtain ⟨n, hn⟩ := hret.exists_fuel
    exact ⟨n, y, hn, h.left_eq_nil.mpr hl, h.right_eq_nil.mpr hr, hcy.trans hc,
      (hbreaks hl hc).mpr hb⟩

/-- The source exchanges contents only when the target has a child. -/
theorem deleteNode_inner {t : RbtTree P V} {ctx : List (Frame P)} {l r : PTree P} {x : P}
    {c : RbtColor} (h : Focus t ctx (node l x c r)) (hlr : l ≠ leaf ∨ r ≠ leaf) (n : ℕ) :
    deleteNode n t x =
      (getSuccessor n t x).bind fun y => spliceOut n (swapNode t x y) y := by
  rw [deleteNode, if_neg h.tree.1, if_pos]
  exact hlr.imp (mt h.left_eq_nil.mp) (mt h.right_eq_nil.mp)

theorem deleteNode_leaf {t : RbtTree P V} {ctx : List (Frame P)} {x : P} {c : RbtColor}
    (h : Focus t ctx (node leaf x c leaf)) (n : ℕ) : deleteNode n t x = spliceOut n t x := by
  rw [deleteNode, if_neg h.tree.1, if_neg]
  simp [h.left_eq_nil, h.right_eq_nil]

/-- Of two neighbours, the second takes the place of the first. -/
theorem map_swap_of_nodup {x y : P} {A B : List P} (hn : (A ++ x :: y :: B).Nodup) :
    (A ++ x :: B).map (Equiv.swap x y) = A ++ y :: B := by
  have hfix : ∀ L : List P, x ∉ L → y ∉ L → L.map (Equiv.swap x y) = L := by
    intro L hx hy
    conv_rhs => rw [← List.map_id L]
    refine List.map_congr_left fun q hq => Equiv.swap_apply_of_ne_of_ne ?_ ?_
    · rintro rfl
      exact hx hq
    · rintro rfl
      exact hy hq
  have hx := List.nodup_middle.mp hn
  rw [List.nodup_cons] at hx
  have hy := List.nodup_middle.mp hx.2
  rw [List.nodup_cons] at hy
  simp only [List.mem_append, List.mem_cons, not_or] at hx hy
  rw [List.map_append, List.map_cons, Equiv.swap_apply_left, hfix A hx.1.1 hy.1.1,
    hfix B hx.1.2.2 hy.1.2]

/-- **What `RBT_deleteNode` does to a red-black tree.** It returns the node `y` it has
spliced out. With the contents of `target` and `y` exchanged back, the order is the old
one without the target; and the tree is red-black again exactly when the deletion does
not break it. -/
theorem deleteNode_spec {t : RbtTree P V} {T : PTree P} (h : RedBlack t T) {target : P}
    (hmem : target ∈ T.ptrs) :
    ∃ t' T' y A B, Loop.Returns (fun n => deleteNode n t target) (t', y) ∧ y ∈ T.ptrs ∧
      Represents t' T' ∧ t'.nil = t.nil ∧ t'.color t'.nil = black ∧ t'.swapData = t.swapData ∧
      t'.key = t.key ∘ Equiv.swap target y ∧
      (Exchanges t → t'.data = t.data ∘ Equiv.swap target y) ∧
      T.ptrs = A ++ target :: B ∧ T'.ptrs.map (Equiv.swap target y) = A ++ B ∧
      ((T'.rootColor = black ∧ ∃ n, T'.Balanced n) ↔ ¬DeleteBreaks t target) := by
  obtain ⟨ctx, l, c, r, rfl⟩ := exists_plug_of_mem hmem
  have hfoc : Focus t ctx (node l target c r) := focus_iff.mpr h.rep
  by_cases hlr : l ≠ leaf ∨ r ≠ leaf
  -- the successor takes the place of the node, and is spliced out with the contents of it
  · obtain ⟨y, ctx', l', cy, r', hret, hplug, hlr', hy⟩ := getSuccessor_spec hfoc
    have h' : RedBlack t (plug ctx' (node l' y cy r')) := hplug ▸ h
    have hbal := balanced_plug.mp ⟨h'.root_black, h'.balanced⟩
    have hfoc' : Focus t ctx' (node l' y cy r') := focus_iff.mpr h'.rep
    obtain ⟨t', T', hret', hrep, hnil, hk, hp, hok⟩ :=
      spliceOut_spec (hfoc'.swapNode target y) h.nil_black hbal hlr'
    have horder : (plug ctx (node l target c r)).ptrs =
        (before ctx' ++ l'.ptrs) ++ y :: (r'.ptrs ++ after ctx') := by
      rw [hplug]
      simp [plug_ptrs]
    have hdata : Exchanges t → t'.data = t.data ∘ Equiv.swap target y := fun he =>
      hk.data.trans (he target y t.data)
    have hbr := hok.trans (not_congr (deleteBreaks_iff hret hfoc' h.nil_black hbal).symm)
    have hdel : Loop.Returns (fun n => deleteNode n t target) (t', y) :=
      (hret.bind (g := fun n y => spliceOut n (swapNode t target y) y) hret').congr
        fun n => (deleteNode_inner hfoc hlr n).symm
    have hmemy : y ∈ (plug ctx (node l target c r)).ptrs := by simp [horder]
    rcases hy with rfl | hy
    · refine ⟨t', T', y, _, _, hdel, hmemy, hrep, hk.nil, hnil, hk.swapData,
        hk.key.trans (swapNode_key t y y), hdata, horder, ?_, hbr⟩
      simp [hp]
    · -- the successor is the next node, and it is the one spliced out
      rw [hy] at horder hp
      have hn : ((before ctx ++ l.ptrs) ++ target :: y :: (r'.ptrs ++ after ctx')).Nodup := by
        have hn := h.rep.nodup
        rw [horder] at hn
        simpa using hn
      refine ⟨t', T', y, before ctx ++ l.ptrs, y :: (r'.ptrs ++ after ctx'), hdel, hmemy, hrep,
        hk.nil, hnil, hk.swapData, hk.key.trans (swapNode_key t target y), hdata,
        by simpa using horder, ?_, hbr⟩
      have hmap := map_swap_of_nodup hn
      rw [hp]
      simpa using hmap
  -- a leaf is its own successor
  · obtain ⟨rfl, rfl⟩ : l = leaf ∧ r = leaf := by
      simpa [not_or] using hlr
    have hbal := balanced_plug.mp ⟨h.root_black, h.balanced⟩
    obtain ⟨t', T', hret, hrep, hnil, hk, hp, hok⟩ :=
      spliceOut_spec hfoc h.nil_black hbal (Or.inl rfl)
    have hsucc : Loop.Returns (fun n => getSuccessor n t target) target :=
      (Loop.returns_pure target).congr fun n => by
        rw [getSuccessor, if_neg (not_not.mpr (hfoc.right_eq_nil.mpr rfl))]
    refine ⟨t', T', target, before ctx, after ctx,
      hret.congr fun n => (deleteNode_leaf hfoc n).symm, hmem, hrep, hk.nil, hnil, hk.swapData, ?_,
      ?_, by simp [plug_ptrs], ?_,
      hok.trans (not_congr (deleteBreaks_iff hsucc hfoc h.nil_black hbal).symm)⟩
    · rw [hk.key]
      simp
    · intro _
      rw [hk.data]
      simp
    · simp [hp]

end RbTree

end BackendStudy
