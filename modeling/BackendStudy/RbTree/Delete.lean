import BackendStudy.RbTree.Insert

/-!
# What a deletion leaves

After a black node has been spliced out, `_adjustAfterDelete` climbs with a subtree
that is one black node short. The loop of the source differs from the textbook in its
first case: where the sibling is red it recolours the sibling and its inner child,
rotates once and stops. That is sound only when the inner child of the sibling has no
red child of its own, because the source colours it red without looking below it.

So the loop is analysed for what it really does. It always ends, on a tree with the
same nodes in the same order (`BackendStudy.RbTree.adjustAfterDelete_spec`), and the
tree is red-black again exactly when the climb does not run into a red sibling of that
kind (`BackendStudy.RbTree.Breaks`). The same condition is stated on the memory before
the deletion as `BackendStudy.RbTree.ShortcutBreaks`, and the two agree on a red-black
tree (`BackendStudy.RbTree.shortcutBreaks_iff`).
-/

namespace BackendStudy

namespace RbTree

open RbtColor PTree

variable {P V : Type*} [DecidableEq P]

/-! ### Where the shortcut breaks the tree -/

/-- A node with a red child. -/
def PTree.HasRedChild : PTree P → Prop
  | leaf => False
  | node l _ _ r => l.rootColor = red ∨ r.rootColor = red

/-- **The climb meets a red sibling whose inner child has a red child.** The climb
passes a frame when the sibling, both its children and the parent are black. -/
def Breaks : List (Frame P) → Prop
  | [] => False
  | .right (node _ _ red br) _ _ :: _ => br.HasRedChild
  | .right (node bl _ black br) _ c :: ctx =>
    bl.rootColor = black ∧ br.rootColor = black ∧ c = black ∧ Breaks ctx
  | .left _ _ (node bl _ red _) :: _ => bl.HasRedChild
  | .left _ c (node bl _ black br) :: ctx =>
    bl.rootColor = black ∧ br.rootColor = black ∧ c = black ∧ Breaks ctx
  | _ :: _ => False

/-- The sibling of a node. -/
def sibling (t : RbtTree P V) (x : P) : P :=
  if x = t.right (t.parent x) then t.left (t.parent x) else t.right (t.parent x)

/-- The child of the sibling on the side of the node. -/
def innerNephew (t : RbtTree P V) (x : P) : P :=
  if x = t.right (t.parent x) then t.right (sibling t x) else t.left (sibling t x)

/-- **The climb meets a red sibling whose inner child has a red child**, read off the
memory. -/
inductive ShortcutBreaks (t : RbtTree P V) : P → Prop
  /-- The sibling is red and its inner child has a red child. -/
  | stop {x : P} : x ≠ t.root → t.color (sibling t x) = red →
      t.color (t.left (innerNephew t x)) = red ∨ t.color (t.right (innerNephew t x)) = red →
      ShortcutBreaks t x
  /-- The climb goes on from the parent. -/
  | climb {x : P} : x ≠ t.root → t.color (sibling t x) = black →
      t.color (t.left (sibling t x)) = black → t.color (t.right (sibling t x)) = black →
      t.color (t.parent x) = black → ShortcutBreaks t (t.parent x) → ShortcutBreaks t x

/-! ### The state of the loop -/

/-- **The head of the deletion loop**: the subtree at the focus is balanced and black,
and one black node lower than its context needs. The parent link is a field of its own
because the subtree may be the sentinel. -/
structure DeleteState (t : RbtTree P V) (ctx : List (Frame P)) (T : PTree P) (h : ℕ) : Prop where
  focus : Focus t ctx T
  parent : t.parent (T.ptr t.nil) = ctxPtr t.nil ctx
  nil_black : t.color t.nil = black
  tree_black : T.rootColor = black
  bal : T.Balanced h
  fits : Fits ctx black (h + 1)

/-- The loop leaves with a tree on the same nodes, red-black exactly when `ok`. -/
def DeleteState.Leaves (t : RbtTree P V) (ctx : List (Frame P)) (T : PTree P) (ok : Prop) : Prop :=
  ∃ t' T', adjustAfterDeleteStep (t, T.ptr t.nil) = .inr t' ∧ Represents t' T' ∧
    t'.color t'.nil = black ∧ SameKeys t t' ∧ T'.ptrs = (plug ctx T).ptrs ∧
    ((T'.rootColor = black ∧ ∃ n, T'.Balanced n) ↔ ok)

/-- The loop goes round again, one level higher. -/
def DeleteState.Climbs (t : RbtTree P V) (f : Frame P) (ctx : List (Frame P)) (T : PTree P)
    (h : ℕ) : Prop :=
  ∃ t' T', adjustAfterDeleteStep (t, T.ptr t.nil) = .inl (t', T'.ptr t'.nil) ∧
    DeleteState t' ctx T' (h + 1) ∧ SameKeys t t' ∧
    (plug ctx T').ptrs = (plug (f :: ctx) T).ptrs ∧ (Breaks (f :: ctx) ↔ Breaks ctx)

/-- A tree left by the loop is represented as soon as its focus is, and it is red-black
when the focus is balanced and fits. -/
theorem DeleteState.leaves_of_focus {t s : RbtTree P V} {f : Frame P} {ctx : List (Frame P)}
    {T T' : PTree P} {ok : Prop} (hstep : adjustAfterDeleteStep (t, T.ptr t.nil) = .inr s)
    (hfoc : Focus s ctx T') (hnil : s.color s.nil = black) (hk : SameKeys t s)
    (hp : T'.ptrs = (f.fill T).ptrs)
    (hok : (∃ n, T'.Balanced n ∧ Fits ctx T'.rootColor n) ↔ ok) :
    Leaves t (f :: ctx) T ok := by
  refine ⟨s, plug ctx T', hstep, focus_iff.mp hfoc, hnil, hk, ?_, balanced_plug.trans hok⟩
  cases f <;> simp_all [plug_ptrs]

omit [DecidableEq P] in
/-- The root of a tree lies above every proper focus. -/
theorem Focus.root_ne {t : RbtTree P V} {f : Frame P} {ctx : List (Frame P)} {T : PTree P}
    (h : Focus t (f :: ctx) T) : t.root ≠ T.ptr t.nil := by
  have key : ∀ (ctx : List (Frame P)) (x : P), HoldsCtx t x ctx → ctx ≠ [] →
      t.root ∈ before ctx ++ after ctx := by
    intro ctx
    induction ctx with
    | nil => exact fun x _ hne => absurd rfl hne
    | cons f ctx ih =>
      intro x hx _
      rcases eq_or_ne ctx [] with rfl | hctx
      · cases f with
        | left q c r =>
          obtain ⟨-, -, -, -, -, -, hroot⟩ := hx
          have hroot : t.root = q := hroot
          simp [after, hroot]
        | right l q c =>
          obtain ⟨-, -, -, -, -, -, hroot⟩ := hx
          have hroot : t.root = q := hroot
          simp [before, hroot]
      · cases f with
        | left q c r =>
          obtain ⟨-, -, -, -, -, -, hx⟩ := hx
          have := ih q hx hctx
          simp only [before, after, List.mem_append, List.mem_cons] at this ⊢
          tauto
        | right l q c =>
          obtain ⟨-, -, -, -, -, -, hx⟩ := hx
          have := ih q hx hctx
          simp only [before, after, List.mem_append] at this ⊢
          tauto
  have hmem := key (f :: ctx) _ h.outer (by simp)
  exact ne_ptr_of_notMem (Holds.ctx_ne_nil h.outer hmem) fun hT => h.notMem_ctx hT hmem

section Rounds

variable {t : RbtTree P V} {q y : P} {c cy : RbtColor} {ctx : List (Frame P)} {bl br T : PTree P}
  {h : ℕ}

omit [DecidableEq P] in
/-- What a round of the loop reads when the focus is a right child. -/
theorem DeleteState.reads_right (hs : DeleteState t (.right (node bl y cy br) q c :: ctx) T h) :
    t.color (T.ptr t.nil) = black ∧ t.root ≠ T.ptr t.nil ∧ t.parent (T.ptr t.nil) = q ∧
      t.right q = T.ptr t.nil ∧ t.left q = y ∧ t.color q = c ∧ t.color y = cy ∧
      t.left y = bl.ptr t.nil ∧ t.right y = br.ptr t.nil ∧
      t.color (bl.ptr t.nil) = bl.rootColor ∧ t.color (br.ptr t.nil) = br.rootColor := by
  obtain ⟨-, -, hl, hr, hc, ⟨-, -, hly, hry, hcy, hbl, hbr⟩, -⟩ := hs.focus.outer
  exact ⟨(hs.focus.tree.color hs.nil_black).trans hs.tree_black, hs.focus.root_ne, hs.parent, hr,
    hl, hc, hcy, hly, hry, hbl.color hs.nil_black, hbr.color hs.nil_black⟩

omit [DecidableEq P] in
/-- What a round of the loop reads when the focus is a left child. -/
theorem DeleteState.reads_left (hs : DeleteState t (.left q c (node bl y cy br) :: ctx) T h) :
    t.color (T.ptr t.nil) = black ∧ t.root ≠ T.ptr t.nil ∧ t.parent (T.ptr t.nil) = q ∧
      T.ptr t.nil ≠ y ∧ t.right q = y ∧ t.color q = c ∧ t.color y = cy ∧
      t.left y = bl.ptr t.nil ∧ t.right y = br.ptr t.nil ∧
      t.color (bl.ptr t.nil) = bl.rootColor ∧ t.color (br.ptr t.nil) = br.rootColor := by
  obtain ⟨-, -, hl, hr, hc, ⟨hy, -, hly, hry, hcy, hbl, hbr⟩, -⟩ := hs.focus.outer
  have hyT : y ≠ T.ptr t.nil :=
    ne_ptr_of_notMem hy fun hm => hs.focus.notMem_ctx hm (by simp [after])
  exact ⟨(hs.focus.tree.color hs.nil_black).trans hs.tree_black, hs.focus.root_ne, hs.parent,
    Ne.symm hyT, hr, hc, hcy, hly, hry, hbl.color hs.nil_black, hbr.color hs.nil_black⟩

omit [DecidableEq P] in
/-- The sibling of a subtree that is one black node short has a node to give. -/
theorem DeleteState.sibling_bal {f : Frame P} (hs : DeleteState t (f :: ctx) T h) :
    f.sibling.Balanced (h + 1) := by
  have hfit := hs.fits
  rcases f with ⟨q, _ | _, r⟩ | ⟨l, q, _ | _⟩
  · exact hfit.2.2.1
  · exact hfit.1
  · exact hfit.2.2.1
  · exact hfit.1

omit [DecidableEq P] in
/-- The context above the parent, by the colour of the parent. -/
theorem DeleteState.fits_outer {f : Frame P} (hs : DeleteState t (f :: ctx) T h) :
    (f.color = red → f.sibling.rootColor = black ∧ Fits ctx red (h + 1)) ∧
      (f.color = black → Fits ctx black (h + 2)) := by
  have hfit := hs.fits
  rcases f with ⟨q, _ | _, r⟩ | ⟨l, q, _ | _⟩
  · exact ⟨fun _ => ⟨hfit.2.1, hfit.2.2.2⟩, fun hc => absurd hc (by simp)⟩
  · exact ⟨fun hc => absurd hc (by simp), fun _ => hfit.2⟩
  · exact ⟨fun _ => ⟨hfit.2.1, hfit.2.2.2⟩, fun hc => absurd hc (by simp)⟩
  · exact ⟨fun hc => absurd hc (by simp), fun _ => hfit.2⟩

omit [DecidableEq P] in
theorem not_hasRedChild {m w : PTree P} {z : P} {cz : RbtColor} :
    ¬(node m z cz w).HasRedChild ↔ m.rootColor = black ∧ w.rootColor = black := by
  have hcol : ∀ c : RbtColor, ¬c = red ↔ c = black := by
    intro c
    cases c <;> simp
  change ¬(m.rootColor = red ∨ w.rootColor = red) ↔ _
  rw [not_or, hcol, hcol]

omit [DecidableEq P] in
/-- The colours and heights around a red sibling. -/
theorem DeleteState.red_sibling {f : Frame P} (hs : DeleteState t (f :: ctx) T h)
    (hf : f.sibling = node bl y red br) :
    f.color = black ∧ bl.rootColor = black ∧ br.rootColor = black ∧ bl.Balanced (h + 1) ∧
      br.Balanced (h + 1) ∧ Fits ctx black (h + 2) := by
  have hbal := hs.sibling_bal
  have hout := hs.fits_outer
  rw [hf] at hbal hout
  have hc : f.color = black := by
    cases hc : f.color with
    | black => rfl
    | red => exact absurd (hout.1 hc).1 (by simp)
  obtain ⟨h₁, h₂, h₃, h₄⟩ := hbal
  exact ⟨hc, h₁, h₂, h₃, h₄, hout.2 hc⟩

/-! #### Case 1: the shortcut of the source -/

theorem DeleteState.shortcut_right
    (hs : DeleteState t (.right (node bl y red br) q c :: ctx) T h) :
    Leaves t (.right (node bl y red br) q c :: ctx) T (¬br.HasRedChild) := by
  obtain ⟨hcT, hroot, hpar, hrq, hlq, -, hcy, -, hry, -, -⟩ := hs.reads_right
  obtain ⟨rfl, -, hbr, hbl', hbr', hfit⟩ := hs.red_sibling rfl
  obtain ⟨hfoc, -, hnil, hT, hbal, -⟩ := hs
  obtain ⟨m, z, cz, w, rfl⟩ := hbr'.exists_node
  obtain rfl : cz = black := hbr
  obtain ⟨hm, hw⟩ := balanced_black_succ.mp hbr'
  obtain ⟨-, -, -, -, -, ⟨hy, -, -, -, -, -, ⟨hz, -⟩⟩, -⟩ := hfoc.outer
  have h₁ : Focus (t.setColor y black) (.left q black T :: ctx)
      (node bl y black (node m z black w)) := focus_sibling.mp (hfoc.setColor_sibling black)
  have h₂ : Focus (t.setColor y black) (.right bl y black :: .left q black T :: ctx)
      (node m z black w) := focus_cons.mpr h₁
  have h₃ : Focus ((t.setColor y black).setColor z red) ctx
      (node (node bl y black (node m z red w)) q black T) :=
    focus_cons.mp (focus_cons.mp (h₂.setColor red))
  refine leaves_of_focus (s := rightRotate ((t.setColor y black).setColor z red) q) ?_
    h₃.rightRotate ?_ ?_ ?_ ?_
  · simp only [adjustAfterDeleteStep, hcT, hpar, hrq, hlq, hcy, hry, if_true, ptr_node,
      and_self, ne_eq, hroot, not_false_eq_true, setColor_right]
  · exact nil_black_rightRotate (nil_black_setColor (nil_black_setColor hnil hy) hz)
  · exact (sameKeys_setColor.trans sameKeys_setColor).trans sameKeys_rightRotate
  · simp
  · rw [not_hasRedChild]
    constructor
    · rintro ⟨n, ⟨n', rfl, -, ⟨n'', rfl, ⟨hm', hw', -, -⟩, -⟩⟩, -⟩
      exact ⟨hm', hw'⟩
    · rintro ⟨hm', hw'⟩
      exact ⟨h + 2, balanced_black_succ.mpr ⟨hbl', balanced_black_succ.mpr
        ⟨⟨hm', hw', hm, hw⟩, hbal⟩⟩, hfit⟩

theorem DeleteState.shortcut_left
    (hs : DeleteState t (.left q c (node bl y red br) :: ctx) T h) :
    Leaves t (.left q c (node bl y red br) :: ctx) T (¬bl.HasRedChild) := by
  obtain ⟨hcT, hroot, hpar, hrq, hlq, -, hcy, hly, -, -, -⟩ := hs.reads_left
  obtain ⟨rfl, hbl, -, hbl', hbr', hfit⟩ := hs.red_sibling rfl
  obtain ⟨hfoc, -, hnil, hT, hbal, -⟩ := hs
  obtain ⟨m, z, cz, w, rfl⟩ := hbl'.exists_node
  obtain rfl : cz = black := hbl
  obtain ⟨hm, hw⟩ := balanced_black_succ.mp hbl'
  obtain ⟨-, -, -, -, -, ⟨hy, -, -, -, -, ⟨hz, -⟩, -⟩, -⟩ := hfoc.outer
  have h₁ : Focus (t.setColor y black) (.right T q black :: ctx)
      (node (node m z black w) y black br) := focus_sibling.mpr (hfoc.setColor_sibling' black)
  have h₂ : Focus (t.setColor y black) (.left y black br :: .right T q black :: ctx)
      (node m z black w) := focus_cons.mpr h₁
  have h₃ : Focus ((t.setColor y black).setColor z red) ctx
      (node T q black (node (node m z red w) y black br)) :=
    focus_cons.mp (focus_cons.mp (h₂.setColor red))
  refine leaves_of_focus (s := leftRotate ((t.setColor y black).setColor z red) q) ?_
    h₃.leftRotate ?_ ?_ ?_ ?_
  · simp only [adjustAfterDeleteStep, hcT, hpar, hrq, hlq, hcy, hly, if_true, if_false, ptr_node,
      and_self, ne_eq, hroot, not_false_eq_true, setColor_left]
  · exact nil_black_leftRotate (nil_black_setColor (nil_black_setColor hnil hy) hz)
  · exact (sameKeys_setColor.trans sameKeys_setColor).trans sameKeys_leftRotate
  · simp
  · rw [not_hasRedChild]
    constructor
    · rintro ⟨n, ⟨n', rfl, ⟨n'', rfl, -, ⟨hm', hw', -, -⟩⟩, -⟩, -⟩
      exact ⟨hm', hw'⟩
    · rintro ⟨hm', hw'⟩
      exact ⟨h + 2, balanced_black_succ.mpr ⟨balanced_black_succ.mpr
        ⟨hbal, ⟨hm', hw', hm, hw⟩⟩, hbr'⟩, hfit⟩

/-! #### Case 2: the sibling and its children are black -/

/-- Colouring the sibling red lowers the two subtrees to the same height. -/
theorem DeleteState.lower_right
    (hs : DeleteState t (.right (node bl y black br) q c :: ctx) T h) :
    Focus (t.setColor y red) ctx (node (node bl y red br) q c T) ∧
      (t.setColor y red).color (t.setColor y red).nil = black := by
  obtain ⟨hfoc, -, hnil, -, -, -⟩ := hs
  obtain ⟨-, -, -, -, -, ⟨hy, -⟩, -⟩ := hfoc.outer
  exact ⟨focus_cons.mp (hfoc.setColor_sibling red), nil_black_setColor hnil hy⟩

theorem DeleteState.lower_left
    (hs : DeleteState t (.left q c (node bl y black br) :: ctx) T h) :
    Focus (t.setColor y red) ctx (node T q c (node bl y red br)) ∧
      (t.setColor y red).color (t.setColor y red).nil = black := by
  obtain ⟨hfoc, -, hnil, -, -, -⟩ := hs
  obtain ⟨-, -, -, -, -, ⟨hy, -⟩, -⟩ := hfoc.outer
  exact ⟨focus_cons.mp (hfoc.setColor_sibling' red), nil_black_setColor hnil hy⟩

/-- A red parent pays for the missing node. -/
theorem DeleteState.repay_right
    (hs : DeleteState t (.right (node bl y black br) q red :: ctx) T h)
    (hbl : bl.rootColor = black) (hbr : br.rootColor = black) :
    Leaves t (.right (node bl y black br) q red :: ctx) T True := by
  obtain ⟨hcT, hroot, hpar, hrq, hlq, hcq, hcy, hly, hry, hcl, hcr⟩ := hs.reads_right
  obtain ⟨hl, hr⟩ := balanced_black_succ.mp hs.sibling_bal
  have hfit := (hs.fits_outer.1 rfl).2
  obtain ⟨h₁, hnil'⟩ := hs.lower_right
  have hq : q ≠ t.nil := hs.focus.outer.1
  have hqy : q ≠ y := h₁.ne_of_mem (by simp)
  refine leaves_of_focus (s := (t.setColor y red).setColor q black) ?_ (h₁.setColor black)
    (nil_black_setColor hnil' hq) (sameKeys_setColor.trans sameKeys_setColor) (by simp)
    (iff_of_true ⟨h + 1, ?_, hfit.black⟩ trivial)
  · simp only [adjustAfterDeleteStep, hcT, hpar, hrq, hlq, hcy, hly, hry, hcl, hcr, hbl, hbr,
      if_true, and_self, ne_eq, hroot, not_false_eq_true, reduceCtorEq, if_false,
      setColor_color_of_ne hqy, hcq]
  · exact balanced_black_succ.mpr ⟨⟨hbl, hbr, hl, hr⟩, hs.bal⟩

theorem DeleteState.repay_left
    (hs : DeleteState t (.left q red (node bl y black br) :: ctx) T h)
    (hbl : bl.rootColor = black) (hbr : br.rootColor = black) :
    Leaves t (.left q red (node bl y black br) :: ctx) T True := by
  obtain ⟨hcT, hroot, hpar, hrq, hlq, hcq, hcy, hly, hry, hcl, hcr⟩ := hs.reads_left
  obtain ⟨hl, hr⟩ := balanced_black_succ.mp hs.sibling_bal
  have hfit := (hs.fits_outer.1 rfl).2
  obtain ⟨h₁, hnil'⟩ := hs.lower_left
  have hq : q ≠ t.nil := hs.focus.outer.1
  have hqy : q ≠ y := h₁.ne_of_mem (by simp)
  refine leaves_of_focus (s := (t.setColor y red).setColor q black) ?_ (h₁.setColor black)
    (nil_black_setColor hnil' hq) (sameKeys_setColor.trans sameKeys_setColor) (by simp)
    (iff_of_true ⟨h + 1, ?_, hfit.black⟩ trivial)
  · simp only [adjustAfterDeleteStep, hcT, hpar, hrq, hlq, hcy, hly, hry, hcl, hcr, hbl, hbr,
      if_true, and_self, ne_eq, hroot, not_false_eq_true, reduceCtorEq, if_false,
      setColor_color_of_ne hqy, hcq]
  · exact balanced_black_succ.mpr ⟨hs.bal, ⟨hbl, hbr, hl, hr⟩⟩

/-- A black parent takes the missing node one level up. -/
theorem DeleteState.climb_right
    (hs : DeleteState t (.right (node bl y black br) q black :: ctx) T h)
    (hbl : bl.rootColor = black) (hbr : br.rootColor = black) :
    Climbs t (.right (node bl y black br) q black) ctx T h := by
  obtain ⟨hcT, hroot, hpar, hrq, hlq, hcq, hcy, hly, hry, hcl, hcr⟩ := hs.reads_right
  obtain ⟨hl, hr⟩ := balanced_black_succ.mp hs.sibling_bal
  obtain ⟨h₁, hnil'⟩ := hs.lower_right
  have hqy : q ≠ y := h₁.ne_of_mem (by simp)
  refine ⟨t.setColor y red, node (node bl y red br) q black T, ?_,
    ⟨h₁, h₁.tree.2.1, hnil', rfl, ?_, hs.fits_outer.2 rfl⟩, sameKeys_setColor,
    by simp [plug_ptrs], ?_⟩
  · simp only [adjustAfterDeleteStep, hcT, hpar, hrq, hlq, hcy, hly, hry, hcl, hcr, hbl, hbr,
      if_true, and_self, ne_eq, hroot, not_false_eq_true, reduceCtorEq, if_false,
      setColor_color_of_ne hqy, hcq, ptr_node]
  · exact balanced_black_succ.mpr ⟨⟨hbl, hbr, hl, hr⟩, hs.bal⟩
  · simp [Breaks, hbl, hbr]

theorem DeleteState.climb_left
    (hs : DeleteState t (.left q black (node bl y black br) :: ctx) T h)
    (hbl : bl.rootColor = black) (hbr : br.rootColor = black) :
    Climbs t (.left q black (node bl y black br)) ctx T h := by
  obtain ⟨hcT, hroot, hpar, hrq, hlq, hcq, hcy, hly, hry, hcl, hcr⟩ := hs.reads_left
  obtain ⟨hl, hr⟩ := balanced_black_succ.mp hs.sibling_bal
  obtain ⟨h₁, hnil'⟩ := hs.lower_left
  have hqy : q ≠ y := h₁.ne_of_mem (by simp)
  refine ⟨t.setColor y red, node T q black (node bl y red br), ?_,
    ⟨h₁, h₁.tree.2.1, hnil', rfl, ?_, hs.fits_outer.2 rfl⟩, sameKeys_setColor,
    by simp [plug_ptrs], ?_⟩
  · simp only [adjustAfterDeleteStep, hcT, hpar, hrq, hlq, hcy, hly, hry, hcl, hcr, hbl, hbr,
      if_true, and_self, ne_eq, hroot, not_false_eq_true, reduceCtorEq, if_false,
      setColor_color_of_ne hqy, hcq, ptr_node]
  · exact balanced_black_succ.mpr ⟨hs.bal, ⟨hbl, hbr, hl, hr⟩⟩
  · simp [Breaks, hbl, hbr]

/-! #### Cases 3 and 4: the sibling is black and has a red child -/

/-- Case 3: only the inner child of the sibling is red. The source leaves the parent its
colour, gives the sibling the same and puts the black inner child on top. -/
theorem DeleteState.inner_right
    (hs : DeleteState t (.right (node bl y black br) q c :: ctx) T h)
    (hbl : bl.rootColor = black) (hbr : br.rootColor = red) :
    Leaves t (.right (node bl y black br) q c :: ctx) T True := by
  obtain ⟨hcT, hroot, hpar, hrq, hlq, hcq, hcy, hly, hry, hcl, hcr⟩ := hs.reads_right
  obtain ⟨hl, hr⟩ := balanced_black_succ.mp hs.sibling_bal
  have hout := hs.fits_outer
  obtain ⟨hfoc, -, hnil, hT, hbal, -⟩ := hs
  rcases br with _ | ⟨m, z, cz, w⟩
  · exact absurd hbr (by simp)
  obtain rfl : cz = red := hbr
  have hcz : t.color z = red := hcr
  obtain ⟨hm, hw, hm', hw'⟩ := hr
  obtain ⟨-, -, -, -, -, ⟨hy, -, -, -, -, -, ⟨hz, -⟩⟩, -⟩ := hfoc.outer
  -- the two colours are set and the two rotations made one after another, with the focus carried
  -- along
  have h₁ : Focus (t.setColor y c) (.right bl y c :: .left q c T :: ctx) (node m z red w) :=
    focus_cons.mpr (focus_sibling.mp (hfoc.setColor_sibling c))
  have h₂ : Focus ((t.setColor y c).setColor z black) (.left q c T :: ctx)
      (node bl y c (node m z black w)) := focus_cons.mp (h₁.setColor black)
  have h₃ : Focus (leftRotate ((t.setColor y c).setColor z black) y) ctx
      (node (node (node bl y c m) z black w) q c T) := focus_cons.mp h₂.leftRotate
  refine leaves_of_focus
    (s := rightRotate (leftRotate ((t.setColor y c).setColor z black) y) q) ?_
    h₃.rightRotate ?_ ?_ (by simp) (iff_of_true ?_ trivial)
  · simp only [adjustAfterDeleteStep, hcT, hpar, hrq, hlq, hcy, hly, hry, hcl, hcz, hbl, hcq,
      if_true, and_self, ne_eq, hroot, not_false_eq_true, reduceCtorEq, if_false,
      and_false, setColor_right, ptr_node]
  · exact nil_black_rightRotate
      (nil_black_leftRotate (nil_black_setColor (nil_black_setColor hnil hy) hz))
  · exact ((sameKeys_setColor.trans sameKeys_setColor).trans sameKeys_leftRotate).trans
      sameKeys_rightRotate
  -- at a red parent the black node comes from the recoloured sibling, at a black one from the
  -- parent
  · cases c with
    | red => exact ⟨h + 1, balanced_black_succ.mpr ⟨⟨hbl, hm, hl, hm'⟩, ⟨hw, hT, hw', hbal⟩⟩,
        (hout.1 rfl).2.black⟩
    | black => exact ⟨h + 2, balanced_black_succ.mpr ⟨balanced_black_succ.mpr ⟨hl, hm'⟩,
        balanced_black_succ.mpr ⟨hw', hbal⟩⟩, hout.2 rfl⟩

theorem DeleteState.inner_left
    (hs : DeleteState t (.left q c (node bl y black br) :: ctx) T h)
    (hbr : br.rootColor = black) (hbl : bl.rootColor = red) :
    Leaves t (.left q c (node bl y black br) :: ctx) T True := by
  obtain ⟨hcT, hroot, hpar, hrq, hlq, hcq, hcy, hly, hry, hcl, hcr⟩ := hs.reads_left
  obtain ⟨hl, hr⟩ := balanced_black_succ.mp hs.sibling_bal
  have hout := hs.fits_outer
  obtain ⟨hfoc, -, hnil, hT, hbal, -⟩ := hs
  rcases bl with _ | ⟨m, z, cz, w⟩
  · exact absurd hbl (by simp)
  obtain rfl : cz = red := hbl
  have hcz : t.color z = red := hcl
  obtain ⟨hm, hw, hm', hw'⟩ := hl
  obtain ⟨-, -, -, -, -, ⟨hy, -, -, -, -, ⟨hz, -⟩, -⟩, -⟩ := hfoc.outer
  have h₁ : Focus (t.setColor y c) (.left y c br :: .right T q c :: ctx) (node m z red w) :=
    focus_cons.mpr (focus_sibling.mpr (hfoc.setColor_sibling' c))
  have h₂ : Focus ((t.setColor y c).setColor z black) (.right T q c :: ctx)
      (node (node m z black w) y c br) := focus_cons.mp (h₁.setColor black)
  have h₃ : Focus (rightRotate ((t.setColor y c).setColor z black) y) ctx
      (node T q c (node m z black (node w y c br))) := focus_cons.mp h₂.rightRotate
  refine leaves_of_focus
    (s := leftRotate (rightRotate ((t.setColor y c).setColor z black) y) q) ?_
    h₃.leftRotate ?_ ?_ (by simp) (iff_of_true ?_ trivial)
  · simp only [adjustAfterDeleteStep, hcT, hpar, hrq, hlq, hcy, hly, hry, hcz, hcr, hbr, hcq,
      if_true, and_self, ne_eq, hroot, not_false_eq_true, reduceCtorEq, if_false,
      and_false, setColor_left, ptr_node]
  · exact nil_black_leftRotate
      (nil_black_rightRotate (nil_black_setColor (nil_black_setColor hnil hy) hz))
  · exact ((sameKeys_setColor.trans sameKeys_setColor).trans sameKeys_rightRotate).trans
      sameKeys_leftRotate
  · cases c with
    | red => exact ⟨h + 1, balanced_black_succ.mpr ⟨⟨hT, hm, hbal, hm'⟩, ⟨hw, hbr, hw', hr⟩⟩,
        (hout.1 rfl).2.black⟩
    | black => exact ⟨h + 2, balanced_black_succ.mpr ⟨balanced_black_succ.mpr ⟨hbal, hm'⟩,
        balanced_black_succ.mpr ⟨hw', hr⟩⟩, hout.2 rfl⟩

/-- Case 4: the outer child of the sibling is red. -/
theorem DeleteState.outer_right
    (hs : DeleteState t (.right (node bl y black br) q c :: ctx) T h)
    (hbl : bl.rootColor = red) :
    Leaves t (.right (node bl y black br) q c :: ctx) T True := by
  obtain ⟨hcT, hroot, hpar, hrq, hlq, hcq, hcy, hly, hry, hcl, hcr⟩ := hs.reads_right
  obtain ⟨hl, hr⟩ := balanced_black_succ.mp hs.sibling_bal
  have hout := hs.fits_outer
  obtain ⟨hfoc, -, hnil, hT, hbal, -⟩ := hs
  rcases bl with _ | ⟨m, z, cz, w⟩
  · exact absurd hbl (by simp)
  obtain rfl : cz = red := hbl
  have hcz : t.color z = red := hcl
  obtain ⟨hm, hw, hm', hw'⟩ := hl
  obtain ⟨hq, -, -, -, -, ⟨hy, -, -, -, -, ⟨hz, -⟩, -⟩, -⟩ := hfoc.outer
  -- the three colours are set and the rotation is made, with the focus carried along
  have h₁ : Focus ((t.setColor y c).setColor q black)
      (.right (node (node m z red w) y c br) q black :: ctx) T :=
    (hfoc.setColor_sibling c).setColor_parent black
  have h₂ : Focus ((t.setColor y c).setColor q black) (.left y c br :: .left q black T :: ctx)
      (node m z red w) := focus_cons.mpr (focus_sibling.mp h₁)
  have h₃ : Focus (((t.setColor y c).setColor q black).setColor z black) ctx
      (node (node (node m z black w) y c br) q black T) :=
    focus_cons.mp (focus_cons.mp (h₂.setColor black))
  refine leaves_of_focus
    (s := rightRotate (((t.setColor y c).setColor q black).setColor z black) q) ?_
    h₃.rightRotate ?_ ?_ (by simp) (iff_of_true ?_ trivial)
  · simp only [adjustAfterDeleteStep, hcT, hpar, hrq, hlq, hcy, hly, hcz, hcq,
      if_true, and_self, ne_eq, hroot, not_false_eq_true, reduceCtorEq, if_false,
      false_and, setColor_left, ptr_node]
  · exact nil_black_rightRotate
      (nil_black_setColor (nil_black_setColor (nil_black_setColor hnil hy) hq) hz)
  · exact ((sameKeys_setColor.trans sameKeys_setColor).trans sameKeys_setColor).trans
      sameKeys_rightRotate
  · have hzb := balanced_black_succ (q := z) |>.mpr ⟨hm', hw'⟩
    have hqb := balanced_black_succ (q := q) |>.mpr ⟨hr, hbal⟩
    cases c with
    | red => exact ⟨h + 1, ⟨rfl, rfl, hzb, hqb⟩, (hout.1 rfl).2⟩
    | black => exact ⟨h + 2, balanced_black_succ.mpr ⟨hzb, hqb⟩, hout.2 rfl⟩

theorem DeleteState.outer_left
    (hs : DeleteState t (.left q c (node bl y black br) :: ctx) T h)
    (hbr : br.rootColor = red) :
    Leaves t (.left q c (node bl y black br) :: ctx) T True := by
  obtain ⟨hcT, hroot, hpar, hrq, hlq, hcq, hcy, hly, hry, hcl, hcr⟩ := hs.reads_left
  obtain ⟨hl, hr⟩ := balanced_black_succ.mp hs.sibling_bal
  have hout := hs.fits_outer
  obtain ⟨hfoc, -, hnil, hT, hbal, -⟩ := hs
  rcases br with _ | ⟨m, z, cz, w⟩
  · exact absurd hbr (by simp)
  obtain rfl : cz = red := hbr
  have hcz : t.color z = red := hcr
  obtain ⟨hm, hw, hm', hw'⟩ := hr
  obtain ⟨hq, -, -, -, -, ⟨hy, -, -, -, -, -, ⟨hz, -⟩⟩, -⟩ := hfoc.outer
  have h₁ : Focus ((t.setColor y c).setColor q black)
      (.left q black (node bl y c (node m z red w)) :: ctx) T :=
    (hfoc.setColor_sibling' c).setColor_parent black
  have h₂ : Focus ((t.setColor y c).setColor q black) (.right bl y c :: .right T q black :: ctx)
      (node m z red w) := focus_cons.mpr (focus_sibling.mpr h₁)
  have h₃ : Focus (((t.setColor y c).setColor q black).setColor z black) ctx
      (node T q black (node bl y c (node m z black w))) :=
    focus_cons.mp (focus_cons.mp (h₂.setColor black))
  refine leaves_of_focus
    (s := leftRotate (((t.setColor y c).setColor q black).setColor z black) q) ?_
    h₃.leftRotate ?_ ?_ (by simp) (iff_of_true ?_ trivial)
  · simp only [adjustAfterDeleteStep, hcT, hpar, hrq, hlq, hcy, hry, hcz, hcq,
      if_true, and_self, ne_eq, hroot, not_false_eq_true, reduceCtorEq, if_false,
      false_and, setColor_right, ptr_node]
  · exact nil_black_leftRotate
      (nil_black_setColor (nil_black_setColor (nil_black_setColor hnil hy) hq) hz)
  · exact ((sameKeys_setColor.trans sameKeys_setColor).trans sameKeys_setColor).trans
      sameKeys_leftRotate
  · have hzb := balanced_black_succ (q := z) |>.mpr ⟨hm', hw'⟩
    have hqb := balanced_black_succ (q := q) |>.mpr ⟨hbal, hl⟩
    cases c with
    | red => exact ⟨h + 1, ⟨rfl, rfl, hqb, hzb⟩, (hout.1 rfl).2⟩
    | black => exact ⟨h + 2, balanced_black_succ.mpr ⟨hqb, hzb⟩, hout.2 rfl⟩

/-- **A round of the deletion loop** below a parent: it leaves, with a red-black tree
exactly when the climb would not have broken it, or it climbs. -/
theorem DeleteState.step {f : Frame P} (hs : DeleteState t (f :: ctx) T h) :
    Leaves t (f :: ctx) T (¬Breaks (f :: ctx)) ∨ Climbs t f ctx T h := by
  obtain ⟨bl, y, cy, br, hsib⟩ := hs.sibling_bal.exists_node
  cases f with
  | right l q c =>
    obtain rfl : l = node bl y cy br := hsib
    cases cy with
    | red => exact Or.inl hs.shortcut_right
    | black =>
      cases hbl : bl.rootColor with
      | red => exact Or.inl (by simpa [Breaks, hbl] using hs.outer_right hbl)
      | black =>
        cases hbr : br.rootColor with
        | red => exact Or.inl (by simpa [Breaks, hbr] using hs.inner_right hbl hbr)
        | black =>
          cases c with
          | red => exact Or.inl (by simpa [Breaks] using hs.repay_right hbl hbr)
          | black => exact Or.inr (hs.climb_right hbl hbr)
  | left q c r =>
    obtain rfl : r = node bl y cy br := hsib
    cases cy with
    | red => exact Or.inl hs.shortcut_left
    | black =>
      cases hbr : br.rootColor with
      | red => exact Or.inl (by simpa [Breaks, hbr] using hs.outer_left hbr)
      | black =>
        cases hbl : bl.rootColor with
        | red => exact Or.inl (by simpa [Breaks, hbl] using hs.inner_left hbr hbl)
        | black =>
          cases c with
          | red => exact Or.inl (by simpa [Breaks] using hs.repay_left hbl hbr)
          | black => exact Or.inr (hs.climb_left hbl hbr)

end Rounds

/-! ### The loop -/

/-- At the root the loop leaves, with the tree it has. -/
theorem DeleteState.exit {t : RbtTree P V} {T : PTree P} {h : ℕ} (hs : DeleteState t [] T h) :
    Leaves t [] T True := by
  have hroot : t.root = T.ptr t.nil := hs.focus.outer
  refine ⟨t, T, ?_, focus_nil.mp hs.focus, hs.nil_black, SameKeys.refl t, rfl,
    iff_of_true ⟨hs.tree_black, h, hs.bal⟩ trivial⟩
  simp [adjustAfterDeleteStep, hroot]

/-- **The deletion loop ends** on a tree with the same nodes in the same order, and that
tree is red-black exactly when the climb meets no red sibling whose inner child has a
red child. -/
theorem adjustAfterDelete_spec {t : RbtTree P V} {ctx : List (Frame P)} {T : PTree P} {h : ℕ}
    (hs : DeleteState t ctx T h) :
    ∃ t' T', Loop.Returns (fun n => adjustAfterDelete n t (T.ptr t.nil)) t' ∧ Represents t' T' ∧
      t'.color t'.nil = black ∧ SameKeys t t' ∧ T'.ptrs = (plug ctx T).ptrs ∧
      ((T'.rootColor = black ∧ ∃ n, T'.Balanced n) ↔ ¬Breaks ctx) := by
  let Inv : ℕ → RbtTree P V × P → Prop := fun n s => ∃ ctx' T' h', n = ctx'.length ∧
    s.2 = T'.ptr s.1.nil ∧ DeleteState s.1 ctx' T' h' ∧ SameKeys t s.1 ∧
    (plug ctx' T').ptrs = (plug ctx T).ptrs ∧ (Breaks ctx ↔ Breaks ctx')
  let Post : RbtTree P V → Prop := fun t' => ∃ T', Represents t' T' ∧ t'.color t'.nil = black ∧
    SameKeys t t' ∧ T'.ptrs = (plug ctx T).ptrs ∧
    ((T'.rootColor = black ∧ ∃ n, T'.Balanced n) ↔ ¬Breaks ctx)
  have hround : ∀ n s, Inv n s →
      (∃ m s', adjustAfterDeleteStep s = .inl s' ∧ m < n ∧ Inv m s') ∨
        ∃ t', adjustAfterDeleteStep s = .inr t' ∧ Post t' := by
    rintro n ⟨t₁, x₁⟩ ⟨ctx₁, T₁, h₁, rfl, hx, hs₁, hk₁, hp₁, hb₁⟩
    obtain rfl : x₁ = T₁.ptr t₁.nil := hx
    have hleave : DeleteState.Leaves t₁ ctx₁ T₁ (¬Breaks ctx₁) →
        ∃ t', adjustAfterDeleteStep (t₁, T₁.ptr t₁.nil) = .inr t' ∧ Post t' := by
      rintro ⟨t₂, T₂, hstep, hrep, hnil, hk₂, hp₂, hok⟩
      exact ⟨t₂, hstep, T₂, hrep, hnil, hk₁.trans hk₂, hp₂.trans hp₁,
        hok.trans (not_congr hb₁.symm)⟩
    rcases ctx₁ with _ | ⟨f, ctx₁⟩
    · exact Or.inr (hleave (by simpa [Breaks] using hs₁.exit))
    · rcases hs₁.step with hl | ⟨t₂, T₂, hstep, hs₂, hk₂, hp₂, hb₂⟩
      · exact Or.inr (hleave hl)
      · exact Or.inl ⟨_, _, hstep, by simp, ctx₁, T₂, h₁ + 1, rfl, rfl, hs₂, hk₁.trans hk₂,
          hp₂.trans hp₁, hb₁.trans hb₂⟩
  obtain ⟨t', hret, T', hpost⟩ := Loop.returns_of_variant hround ctx.length (t, T.ptr t.nil)
    ⟨ctx, T, h, rfl, rfl, hs, SameKeys.refl t, rfl, Iff.rfl⟩
  exact ⟨t', T', hret, hpost⟩

/-! ### The condition on the memory -/

theorem shortcutBreaks_def {t : RbtTree P V} {x : P} : ShortcutBreaks t x ↔ x ≠ t.root ∧
    (t.color (sibling t x) = red ∧ (t.color (t.left (innerNephew t x)) = red ∨
      t.color (t.right (innerNephew t x)) = red) ∨
    t.color (sibling t x) = black ∧ t.color (t.left (sibling t x)) = black ∧
      t.color (t.right (sibling t x)) = black ∧ t.color (t.parent x) = black ∧
      ShortcutBreaks t (t.parent x)) := by
  constructor
  · intro hx
    cases hx with
    | stop hroot hred hinner => exact ⟨hroot, Or.inl ⟨hred, hinner⟩⟩
    | climb hroot hsib hl hr hpar hup => exact ⟨hroot, Or.inr ⟨hsib, hl, hr, hpar, hup⟩⟩
  · rintro ⟨hroot, ⟨hred, hinner⟩ | ⟨hsib, hl, hr, hpar, hup⟩⟩
    · exact ShortcutBreaks.stop hroot hred hinner
    · exact ShortcutBreaks.climb hroot hsib hl hr hpar hup

omit [DecidableEq P] in
/-- A red child seen through the pointers of a node. -/
theorem Holds.hasRedChild {t : RbtTree P V} {par : P} {T : PTree P} {n : ℕ} (h : Holds t par T)
    (hnil : t.color t.nil = black) (hT : T.Balanced (n + 1)) :
    (t.color (t.left (T.ptr t.nil)) = red ∨ t.color (t.right (T.ptr t.nil)) = red) ↔
      T.HasRedChild := by
  obtain ⟨l, q, c, r, rfl⟩ := hT.exists_node
  obtain ⟨-, -, hl, hr, -, hhl, hhr⟩ := h
  rw [ptr_node, hl, hr, hhl.color hnil, hhr.color hnil]
  rfl

/-- **The condition on the memory and the condition on the climb agree.** -/
theorem shortcutBreaks_iff {t : RbtTree P V} {ctx : List (Frame P)} {T : PTree P} {h : ℕ}
    (hfoc : Focus t ctx T) (hT : T ≠ leaf) (hnil : t.color t.nil = black)
    (hfit : Fits ctx black (h + 1)) : ShortcutBreaks t (T.ptr t.nil) ↔ Breaks ctx := by
  -- along the path to the root, as the loop climbs it
  induction ctx generalizing T h with
  | nil =>
    have hroot : T.ptr t.nil = t.root := hfoc.outer.symm
    rw [shortcutBreaks_def]
    exact iff_of_false (fun hx => hx.1 hroot) not_false
  | cons f ctx ih =>
    obtain ⟨tl, x, cx, tr, rfl⟩ : ∃ l q c r, T = node l q c r := by
      cases T with
      | leaf => exact absurd rfl hT
      | node l q c r => exact ⟨l, q, c, r, rfl⟩
    have hroot : x ≠ t.root := Ne.symm hfoc.root_ne
    have hup := @ih _ (h + 1) (focus_cons.mp hfoc) (by cases f <;> simp)
    rw [ptr_node, shortcutBreaks_def, and_iff_right hroot]
    cases f with
    | right l q c =>
      have hpar : t.parent x = q := hfoc.tree.2.1
      obtain ⟨-, -, hl, hr, hc, hhl, -⟩ := hfoc.outer
      -- the sibling is there, since its side is one black node higher
      have hbal : l.Balanced (h + 1) := by cases c <;> simp_all
      obtain ⟨bl, y, cy, br, rfl⟩ := hbal.exists_node
      obtain ⟨-, -, hly, hry, hcy, hhbl, hhbr⟩ := hhl
      have hxr : x = t.right q := hr.symm
      have hsib : sibling t x = y := by rw [sibling, hpar, if_pos hxr, hl, ptr_node]
      have hinn : innerNephew t x = br.ptr t.nil := by
        rw [innerNephew, hpar, if_pos hxr, hsib, hry]
      rw [hinn, hsib, hcy, hly, hry, hpar, hhbl.color hnil, hhbr.color hnil]
      -- at a red sibling the loop stops, at a black one it may go on above
      cases cy with
      | red => simpa [Breaks] using hhbr.hasRedChild hnil hbal.2.2.2
      | black =>
        have hup' : c = black → (ShortcutBreaks t q ↔ Breaks ctx) := by
          rintro rfl
          exact hup hfit.2
        simp only [Breaks, reduceCtorEq, false_and, true_and, false_or, hc]
        grind
    | left q c r =>
      have hpar : t.parent x = q := hfoc.tree.2.1
      obtain ⟨-, -, hl, hr, hc, hhr, -⟩ := hfoc.outer
      have hbal : r.Balanced (h + 1) := by cases c <;> simp_all
      obtain ⟨bl, y, cy, br, rfl⟩ := hbal.exists_node
      obtain ⟨hy, -, hly, hry, hcy, hhbl, hhbr⟩ := hhr
      have hxr : x ≠ t.right q := by
        rw [hr]
        rintro rfl
        exact hfoc.notMem_ctx (q := x) (by simp) (by simp [after])
      have hsib : sibling t x = y := by rw [sibling, hpar, if_neg hxr, hr, ptr_node]
      have hinn : innerNephew t x = bl.ptr t.nil := by
        rw [innerNephew, hpar, if_neg hxr, hsib, hly]
      rw [hinn, hsib, hcy, hly, hry, hpar, hhbl.color hnil, hhbr.color hnil]
      cases cy with
      | red => simpa [Breaks] using hhbl.hasRedChild hnil hbal.2.2.1
      | black =>
        have hup' : c = black → (ShortcutBreaks t q ↔ Breaks ctx) := by
          rintro rfl
          exact hup hfit.2
        simp only [Breaks, reduceCtorEq, false_and, true_and, false_or, hc]
        grind

end RbTree

end BackendStudy
