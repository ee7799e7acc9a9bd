import BackendStudy.RbTree.Rotate

/-!
# Insertion keeps the red-black tree

The loop of `_adjustAfterInsert` climbs with a red node whose parent may be red as
well. `BackendStudy.RbTree.InsertState` is what holds at the head of the loop: apart
from that one edge the tree is red-black. A round either recolours and climbs two
levels or rotates and is then one level from the root's side
(`BackendStudy.RbTree.InsertState.step`), so the number of frames above the node
decreases, the loop ends, and colouring the root black leaves a red-black tree with the
same nodes in the same order (`BackendStudy.RbTree.adjustAfterInsert_spec`).
-/

namespace BackendStudy

namespace RbTree

open RbtColor PTree

variable {P V : Type*} [DecidableEq P]

/-! ### The state of the loop -/

/-- **The head of the insertion loop**: `x` is a red node with balanced children, in a
context that would fit a black node in its place. -/
structure InsertState (t : RbtTree P V) (x : P) (ctx : List (Frame P)) (a b : PTree P) (h : ℕ) :
    Prop where
  focus : Focus t ctx (node a x red b)
  nil_black : t.color t.nil = black
  left_black : a.rootColor = black
  right_black : b.rootColor = black
  left_bal : a.Balanced h
  right_bal : b.Balanced h
  fits : Fits ctx black h

/-- What a round of the loop does: it goes to a state of the same kind, closer to the
root, on the same nodes in the same order. -/
def InsertState.Steps (t : RbtTree P V) (x : P) (ctx : List (Frame P)) (T : PTree P) : Prop :=
  ∃ t' x' ctx' a' b' h', adjustAfterInsertStep (t, x) = .inl (t', x') ∧
    ctx'.length < ctx.length ∧ InsertState t' x' ctx' a' b' h' ∧ SameKeys t t' ∧
    (plug ctx' (node a' x' red b')).ptrs = (plug ctx T).ptrs

section Rounds

variable {t : RbtTree P V} {x p g : P} {ctx : List (Frame P)} {a b s u : PTree P} {h : ℕ}

omit [DecidableEq P] in
/-- What the source reads at a red parent. -/
theorem InsertState.reads_parent {f f' : Frame P} (hf : f.color = red)
    (hs : InsertState t x (f :: f' :: ctx) a b h) (hg : f'.ptr = g) : t.parent x = f.ptr ∧
      t.color f.ptr = red ∧ t.parent f.ptr = g ∧ f.ptr ≠ t.nil := by
  subst hg
  have hfoc := hs.focus
  refine ⟨hfoc.tree.2.1, ?_, ?_, ?_⟩
  · cases f <;> exact hfoc.outer.2.2.2.2.1.trans hf
  · cases f <;> exact hfoc.outer.2.1
  · cases f <;> exact hfoc.outer.1

/-- The uncle is red, and the parent is a left child. -/
theorem InsertState.recolor_left {f : Frame P} (hf : f.color = red)
    (hs : InsertState t x (f :: .left g black u :: ctx) a b h) (hu : u.rootColor = red) :
    Steps t x (f :: .left g black u :: ctx) (node a x red b) := by
  rcases u with _ | ⟨u₁, q, c, u₂⟩
  · simp at hu
  obtain rfl : c = red := hu
  obtain ⟨hpx, hcp, hpp, hp0⟩ := hs.reads_parent (g := g) hf rfl
  obtain ⟨hfoc, hnil, hab, hbb, ha, hb, hfit⟩ := hs
  obtain ⟨hg, -, hlg, hrg, -, hhu, -⟩ := (focus_cons.mp hfoc).outer
  have hlg' : t.left g = f.ptr := by cases f <;> exact hlg
  have hcu : t.color q = red := hhu.2.2.2.2.1
  have h₁ := focus_cons.mp (hfoc.setColor_parent black)
  have h₂ := focus_cons.mp ((h₁.setColor_sibling' black).setColor_parent red)
  refine ⟨_, g, ctx, (f.recolor black).fill (node a x red b), node u₁ q black u₂, h + 1, ?_, ?_,
    ⟨h₂, ?_, ?_, rfl, ?_, ?_, ?_⟩, ?_, ?_⟩
  · simp only [adjustAfterInsertStep, hpx, hcp, hpp, hlg', hrg, ptr_node, hcu, if_true,
      setColor_parent]
    rfl
  · simp only [List.length_cons]
    omega
  · exact nil_black_setColor (nil_black_setColor (nil_black_setColor hnil hp0) hhu.1) hg
  · cases f <;> rfl
  · cases f <;> simp_all
  · cases f <;> simp_all
  · cases f <;> simp_all
  · exact (sameKeys_setColor.trans sameKeys_setColor).trans sameKeys_setColor
  · cases f <;> simp [plug_ptrs]

/-- The uncle is red, and the parent is a right child. -/
theorem InsertState.recolor_right {f : Frame P} (hf : f.color = red)
    (hs : InsertState t x (f :: .right u g black :: ctx) a b h) (hu : u.rootColor = red) :
    Steps t x (f :: .right u g black :: ctx) (node a x red b) := by
  rcases u with _ | ⟨u₁, q, c, u₂⟩
  · simp at hu
  obtain rfl : c = red := hu
  obtain ⟨hpx, hcp, hpp, hp0⟩ := hs.reads_parent (g := g) hf rfl
  obtain ⟨hfoc, hnil, hab, hbb, ha, hb, hfit⟩ := hs
  obtain ⟨hg, -, hlg, hrg, -, hhu, -⟩ := (focus_cons.mp hfoc).outer
  have hpq : f.ptr ≠ q := by
    have hm := (focus_cons.mp hfoc).notMem_ctx (q := f.ptr) (by cases f <;> simp)
    rintro rfl
    exact hm (by simp [before])
  have hcu : t.color q = red := hhu.2.2.2.2.1
  have h₁ := focus_cons.mp (hfoc.setColor_parent black)
  have h₂ := focus_cons.mp ((h₁.setColor_sibling black).setColor_parent red)
  refine ⟨_, g, ctx, node u₁ q black u₂, (f.recolor black).fill (node a x red b), h + 1, ?_, ?_,
    ⟨h₂, ?_, rfl, ?_, ?_, ?_, ?_⟩, ?_, ?_⟩
  · simp only [adjustAfterInsertStep, hpx, hcp, hpp, hlg, ptr_node, hcu, if_true, if_neg hpq,
      setColor_parent]
    rfl
  · simp only [List.length_cons]
    omega
  · exact nil_black_setColor (nil_black_setColor (nil_black_setColor hnil hp0) hhu.1) hg
  · cases f <;> rfl
  · cases f <;> simp_all
  · cases f <;> simp_all
  · cases f <;> simp_all
  · exact (sameKeys_setColor.trans sameKeys_setColor).trans sameKeys_setColor
  · cases f <;> simp [plug_ptrs]

/-- The uncle is black, and the node is the left child of a left child. -/
theorem InsertState.rotate_left_left
    (hs : InsertState t x (.left p red s :: .left g black u :: ctx) a b h)
    (hu : u.rootColor = black) :
    Steps t x (.left p red s :: .left g black u :: ctx) (node a x red b) := by
  obtain ⟨hfoc, hnil, hab, hbb, ha, hb, hfit⟩ := hs
  obtain ⟨hp, hpp, -, hrp, hcp, -, hg, -, hlg, hrg, -, hhu, -⟩ := hfoc.outer
  obtain ⟨hx, hpx, -⟩ := hfoc.tree
  have hcu : t.color (u.ptr t.nil) = black := (hhu.color hnil).trans hu
  have hxs : x ≠ s.ptr t.nil := by
    refine ne_ptr_of_notMem hx fun hm => ?_
    exact hfoc.notMem_ctx (q := x) (by simp) (by simp [after, hm])
  have h₁ := (focus_cons.mp (hfoc.setColor_parent black)).setColor_parent red
  have h₂ : Focus (rightRotate ((t.setColor p black).setColor g red) g) ctx
      (node (node a x red b) p black (node s g red u)) := (focus_cons.mp h₁).rightRotate
  have h₃ : Focus (rightRotate ((t.setColor p black).setColor g red) g)
      (.left p black (node s g red u) :: ctx) (node a x red b) := focus_cons.mpr h₂
  simp only [fits_left_red, fits_left_black] at hfit
  refine ⟨_, x, _, a, b, h, ?_, ?_, ⟨h₃, ?_, hab, hbb, ha, hb, ?_⟩, ?_, ?_⟩
  · simp only [adjustAfterInsertStep, hpx, hcp, hpp, ctxPtr_left, hlg, hrg, hcu, hrp, if_true,
      if_neg hxs, setColor_parent, reduceCtorEq, if_false]
  · simp
  · exact nil_black_rightRotate (nil_black_setColor (nil_black_setColor hnil hp) hg)
  · simp_all
  · exact (sameKeys_setColor.trans sameKeys_setColor).trans sameKeys_rightRotate
  · simp [plug_ptrs]

/-- The uncle is black, and the node is the right child of a left child. -/
theorem InsertState.rotate_left_right
    (hs : InsertState t x (.right s p red :: .left g black u :: ctx) a b h)
    (hu : u.rootColor = black) :
    Steps t x (.right s p red :: .left g black u :: ctx) (node a x red b) := by
  obtain ⟨hfoc, hnil, hab, hbb, ha, hb, hfit⟩ := hs
  obtain ⟨hp, hpp, -, hrp, hcp, -, hg, -, hlg, hrg, -, hhu, -⟩ := hfoc.outer
  obtain ⟨hx, hpx, -⟩ := hfoc.tree
  have hcu : t.color (u.ptr t.nil) = black := (hhu.color hnil).trans hu
  -- the inner rotation brings the node between its old parent and its grandparent
  have h₁ : Focus (leftRotate t p) (.left g black u :: ctx) (node (node s p red a) x red b) :=
    (focus_cons.mp hfoc).leftRotate
  obtain ⟨hx', hpx', -, -, -, ⟨-, hpp', -⟩, -⟩ := h₁.tree
  have hg' : g ≠ (leftRotate t p).nil := by rw [sameKeys_leftRotate.nil]; exact hg
  have h₂ := (h₁.setColor black).setColor_parent red
  have h₃ : Focus (rightRotate (((leftRotate t p).setColor x black).setColor g red) g) ctx
      (node (node s p red a) x black (node b g red u)) := (focus_cons.mp h₂).rightRotate
  have h₄ : Focus (rightRotate (((leftRotate t p).setColor x black).setColor g red) g)
      (.left x black (node b g red u) :: ctx) (node s p red a) := focus_cons.mpr h₃
  simp only [fits_right_red, fits_left_black] at hfit
  refine ⟨_, p, _, s, a, h, ?_, ?_, ⟨h₄, ?_, hfit.2.1, hab, hfit.2.2.1, ha, ?_⟩, ?_, ?_⟩
  · simp only [adjustAfterInsertStep, hpx, hcp, hpp, ctxPtr_left, ctxPtr_right, ptr_node, hlg, hrg,
      hcu, hrp, if_true, hpx', hpp', setColor_parent, reduceCtorEq, if_false]
  · simp
  · exact nil_black_rightRotate
      (nil_black_setColor (nil_black_setColor (nil_black_leftRotate hnil) hx') hg')
  · simp_all
  · exact ((sameKeys_leftRotate.trans sameKeys_setColor).trans sameKeys_setColor).trans
      sameKeys_rightRotate
  · simp [plug_ptrs]

/-- The uncle is black, and the node is the right child of a right child. -/
theorem InsertState.rotate_right_right
    (hs : InsertState t x (.right s p red :: .right u g black :: ctx) a b h)
    (hu : u.rootColor = black) :
    Steps t x (.right s p red :: .right u g black :: ctx) (node a x red b) := by
  obtain ⟨hfoc, hnil, hab, hbb, ha, hb, hfit⟩ := hs
  obtain ⟨hp, hpp, hlp, hrp, hcp, -, hg, -, hlg, hrg, -, hhu, -⟩ := hfoc.outer
  obtain ⟨hx, hpx, -⟩ := hfoc.tree
  have hcu : t.color (u.ptr t.nil) = black := (hhu.color hnil).trans hu
  have hxs : x ≠ s.ptr t.nil := by
    refine ne_ptr_of_notMem hx fun hm => ?_
    exact hfoc.notMem_ctx (q := x) (by simp) (by simp [before, hm])
  have hpu : p ≠ u.ptr t.nil := by
    refine ne_ptr_of_notMem hp fun hm => ?_
    exact (focus_cons.mp hfoc).notMem_ctx (q := p) (by simp) (by simp [before, hm])
  have h₁ := (focus_cons.mp (hfoc.setColor_parent black)).setColor_parent red
  have h₂ : Focus (leftRotate ((t.setColor p black).setColor g red) g) ctx
      (node (node u g red s) p black (node a x red b)) := (focus_cons.mp h₁).leftRotate
  have h₃ : Focus (leftRotate ((t.setColor p black).setColor g red) g)
      (.right (node u g red s) p black :: ctx) (node a x red b) := focus_cons.mpr h₂
  simp only [fits_right_red, fits_right_black] at hfit
  refine ⟨_, x, _, a, b, h, ?_, ?_, ⟨h₃, ?_, hab, hbb, ha, hb, ?_⟩, ?_, ?_⟩
  · simp only [adjustAfterInsertStep, hpx, hcp, hpp, ctxPtr_right, hlg, hcu, hlp, if_true,
      if_neg hxs, if_neg hpu, setColor_parent, reduceCtorEq, if_false]
  · simp
  · exact nil_black_leftRotate (nil_black_setColor (nil_black_setColor hnil hp) hg)
  · simp_all
  · exact (sameKeys_setColor.trans sameKeys_setColor).trans sameKeys_leftRotate
  · simp [plug_ptrs]

/-- The uncle is black, and the node is the left child of a right child. -/
theorem InsertState.rotate_right_left
    (hs : InsertState t x (.left p red s :: .right u g black :: ctx) a b h)
    (hu : u.rootColor = black) :
    Steps t x (.left p red s :: .right u g black :: ctx) (node a x red b) := by
  obtain ⟨hfoc, hnil, hab, hbb, ha, hb, hfit⟩ := hs
  obtain ⟨hp, hpp, hlp, -, hcp, -, hg, -, hlg, hrg, -, hhu, -⟩ := hfoc.outer
  obtain ⟨hx, hpx, -⟩ := hfoc.tree
  have hcu : t.color (u.ptr t.nil) = black := (hhu.color hnil).trans hu
  have hpu : p ≠ u.ptr t.nil := by
    refine ne_ptr_of_notMem hp fun hm => ?_
    exact (focus_cons.mp hfoc).notMem_ctx (q := p) (by simp) (by simp [before, hm])
  have h₁ : Focus (rightRotate t p) (.right u g black :: ctx) (node a x red (node b p red s)) :=
    (focus_cons.mp hfoc).rightRotate
  obtain ⟨hx', hpx', -, -, -, -, ⟨-, hpp', -⟩⟩ := h₁.tree
  have hg' : g ≠ (rightRotate t p).nil := by rw [sameKeys_rightRotate.nil]; exact hg
  have h₂ := (h₁.setColor black).setColor_parent red
  have h₃ : Focus (leftRotate (((rightRotate t p).setColor x black).setColor g red) g) ctx
      (node (node u g red a) x black (node b p red s)) := (focus_cons.mp h₂).leftRotate
  have h₄ : Focus (leftRotate (((rightRotate t p).setColor x black).setColor g red) g)
      (.right (node u g red a) x black :: ctx) (node b p red s) := focus_cons.mpr h₃
  simp only [fits_left_red, fits_right_black] at hfit
  refine ⟨_, p, _, b, s, h, ?_, ?_, ⟨h₄, ?_, hbb, hfit.2.1, hb, hfit.2.2.1, ?_⟩, ?_, ?_⟩
  · simp only [adjustAfterInsertStep, hpx, hcp, hpp, ctxPtr_left, ctxPtr_right, ptr_node, hlg, hcu,
      hlp, if_true, if_neg hpu, hpx', hpp', setColor_parent, reduceCtorEq, if_false]
  · simp
  · exact nil_black_leftRotate
      (nil_black_setColor (nil_black_setColor (nil_black_rightRotate hnil) hx') hg')
  · simp_all
  · exact ((sameKeys_rightRotate.trans sameKeys_setColor).trans sameKeys_setColor).trans
      sameKeys_leftRotate
  · simp [plug_ptrs]

/-- **A round below a red parent.** The parent of the node is red, so it is not the
root and the grandparent is black; the six cases of the source are told apart by the
two frames above the node and the colour of the uncle. -/
theorem InsertState.step {f : Frame P} {ctx : List (Frame P)} (hf : f.color = red)
    (hs : InsertState t x (f :: ctx) a b h) : Steps t x (f :: ctx) (node a x red b) := by
  have hfit : Fits ctx red h := by
    have := hs.fits
    cases f <;> (obtain rfl := hf; exact this.2.2.2)
  rcases ctx with _ | ⟨g, ctx⟩
  · exact absurd (fits_nil.mp hfit) (by simp)
  have hg : g.color = black := by
    rcases g with ⟨g, _ | _, u⟩ | ⟨u, g, _ | _⟩
    · exact absurd hfit.1 (by simp)
    · rfl
    · exact absurd hfit.1 (by simp)
    · rfl
  cases g with
  | left g c u =>
    obtain rfl : c = black := hg
    cases hu : u.rootColor with
    | red => exact hs.recolor_left hf hu
    | black =>
      cases f <;> obtain rfl := hf
      · exact hs.rotate_left_left hu
      · exact hs.rotate_left_right hu
  | right u g c =>
    obtain rfl : c = black := hg
    cases hu : u.rootColor with
    | red => exact hs.recolor_right hf hu
    | black =>
      cases f <;> obtain rfl := hf
      · exact hs.rotate_right_left hu
      · exact hs.rotate_right_right hu

end Rounds

/-! ### The loop -/

/-- Colouring the root black leaves a red-black tree when only the root was red. -/
theorem RedBlack.of_blacken {t : RbtTree P V} {l r : PTree P} {q : P} {c : RbtColor}
    (hrep : Represents t (node l q c r)) (hnil : t.color t.nil = black)
    (hbal : ∃ n, (node l q black r).Balanced n) :
    RedBlack (t.setColor t.root black) (node l q black r) := by
  have hroot : t.root = q := hrep.root
  have hq : q ≠ t.nil := hrep.holds.1
  rw [hroot]
  exact ⟨focus_nil.mp ((focus_nil.mpr hrep).setColor black), nil_black_setColor hnil hq, rfl, hbal⟩

/-- The loop leaves when the parent of the node is black. -/
theorem InsertState.exit {t : RbtTree P V} {x : P} {ctx : List (Frame P)} {a b : PTree P} {h : ℕ}
    (hs : InsertState t x ctx a b h) (hctx : ∀ f ∈ ctx.head?, f.color = black) :
    ∃ t' T', adjustAfterInsertStep (t, x) = .inr t' ∧ RedBlack t' T' ∧ SameKeys t t' ∧
      T'.ptrs = (plug ctx (node a x red b)).ptrs := by
  obtain ⟨hfoc, hnil, hab, hbb, ha, hb, hfit⟩ := hs
  have hpx : t.parent x = ctxPtr t.nil ctx := hfoc.tree.2.1
  have hcp : t.color (ctxPtr t.nil ctx) = black := by
    rcases ctx with _ | ⟨f | f, ctx⟩
    · exact hnil
    · exact hfoc.outer.2.2.2.2.1.trans (hctx _ rfl)
    · exact hfoc.outer.2.2.2.2.1.trans (hctx _ rfl)
  have hstep : adjustAfterInsertStep (t, x) = .inr (t.setColor t.root black) := by
    simp only [adjustAfterInsertStep, hpx, hcp, reduceCtorEq, if_false]
  rcases ctx with _ | ⟨f, ctx⟩
  · refine ⟨_, node a x black b, hstep, RedBlack.of_blacken (focus_nil.mp hfoc) hnil ?_,
      sameKeys_setColor, by simp⟩
    exact ⟨h + 1, balanced_black_succ.mpr ⟨ha, hb⟩⟩
  · -- the root is a node above, and it is black already
    have hf : Fits (f :: ctx) red h := by
      have hc := hctx f rfl
      cases f <;> (obtain rfl := hc; exact hfit)
    obtain ⟨hroot, hbal⟩ := balanced_plug.mpr
      ⟨h, show (node a x red b).Balanced h from ⟨hab, hbb, ha, hb⟩, hf⟩
    have hrep := focus_iff.mp hfoc
    have hmem : x ∈ (plug (f :: ctx) (node a x red b)).ptrs := by simp [plug_ptrs]
    generalize plug (f :: ctx) (node a x red b) = T at hroot hbal hrep hmem ⊢
    cases T with
    | leaf => simp at hmem
    | node l q c r =>
      obtain rfl : c = black := hroot
      exact ⟨_, _, hstep, RedBlack.of_blacken hrep hnil hbal, sameKeys_setColor, rfl⟩

/-- **The insertion loop ends in a red-black tree** on the same nodes in the same
order. -/
theorem adjustAfterInsert_spec {t : RbtTree P V} {x : P} {ctx : List (Frame P)} {a b : PTree P}
    {h : ℕ} (hs : InsertState t x ctx a b h) :
    ∃ t' T', Loop.Returns (fun n => adjustAfterInsert n t x) t' ∧ RedBlack t' T' ∧
      SameKeys t t' ∧ T'.ptrs = (plug ctx (node a x red b)).ptrs := by
  let Inv : ℕ → RbtTree P V × P → Prop := fun n s => ∃ ctx' a' b' h', n = ctx'.length ∧
    InsertState s.1 s.2 ctx' a' b' h' ∧ SameKeys t s.1 ∧
    (plug ctx' (node a' s.2 red b')).ptrs = (plug ctx (node a x red b)).ptrs
  let Post : RbtTree P V → Prop := fun t' => ∃ T', RedBlack t' T' ∧ SameKeys t t' ∧
    T'.ptrs = (plug ctx (node a x red b)).ptrs
  have hround : ∀ n s, Inv n s →
      (∃ m s', adjustAfterInsertStep s = .inl s' ∧ m < n ∧ Inv m s') ∨
        ∃ t', adjustAfterInsertStep s = .inr t' ∧ Post t' := by
    rintro n ⟨t₁, x₁⟩ ⟨ctx₁, a₁, b₁, h₁, rfl, hs₁, hk₁, hp₁⟩
    by_cases hred : ∃ f ctx', ctx₁ = f :: ctx' ∧ f.color = red
    · obtain ⟨f, ctx', rfl, hf⟩ := hred
      obtain ⟨t₂, x₂, ctx₂, a₂, b₂, h₂, hstep, hlt, hs₂, hk₂, hp₂⟩ := hs₁.step hf
      exact Or.inl ⟨_, _, hstep, hlt, ctx₂, a₂, b₂, h₂, rfl, hs₂, hk₁.trans hk₂, hp₂.trans hp₁⟩
    · have hctx : ∀ f ∈ ctx₁.head?, f.color = black := by
        intro f hf
        cases ctx₁ with
        | nil => simp at hf
        | cons g ctx' =>
          obtain rfl : g = f := by simpa using hf
          cases hc : g.color with
          | black => rfl
          | red => exact absurd ⟨g, ctx', rfl, hc⟩ hred
      obtain ⟨t₂, T₂, hstep, hrb, hk₂, hp₂⟩ := hs₁.exit hctx
      exact Or.inr ⟨t₂, hstep, T₂, hrb, hk₁.trans hk₂, hp₂.trans hp₁⟩
  obtain ⟨t', hret, T', hpost⟩ := Loop.returns_of_variant hround ctx.length (t, x)
    ⟨ctx, a, b, h, rfl, hs, SameKeys.refl t, rfl⟩
  exact ⟨t', T', hret, hpost⟩

/-! ### The descent -/

omit [DecidableEq P] in
/-- **The way down to a key**: the keys of the nodes before the focus are smaller and
those after it are greater. -/
structure Between (t : RbtTree P V) (k : ℤ) (ctx : List (Frame P)) : Prop where
  before : ∀ p ∈ before ctx, t.key p < k
  after : ∀ p ∈ after ctx, k < t.key p

section Descent

omit [DecidableEq P]

variable {t : RbtTree P V} {k : ℤ} {ctx : List (Frame P)} {l r : PTree P} {q : P} {c : RbtColor}

theorem between_nil : Between t k [] := ⟨by simp [before], by simp [after]⟩

/-- The keys of a tree in order, around the root of its focus. -/
theorem sorted_plug (hs : Sorted t (plug ctx (node l q c r))) :
    (∀ p ∈ l.ptrs, t.key p < t.key q) ∧ ∀ p ∈ r.ptrs, t.key q < t.key p := by
  rw [Sorted, plug_ptrs, List.pairwise_append] at hs
  have hs' := (List.pairwise_append.mp hs.2.1).1
  rw [ptrs_node, List.pairwise_append, List.pairwise_cons] at hs'
  exact ⟨fun p hp => hs'.2.2 p hp q (by simp), hs'.2.1.1⟩

theorem Between.left (h : Between t k ctx) (hs : Sorted t (plug ctx (node l q c r)))
    (hk : k < t.key q) : Between t k (.left q c r :: ctx) := by
  refine ⟨h.before, fun p hp => ?_⟩
  simp only [RbTree.after, List.cons_append, List.mem_cons, List.mem_append] at hp
  rcases hp with rfl | hp | hp
  · exact hk
  · exact hk.trans ((sorted_plug hs).2 p hp)
  · exact h.after p hp

theorem Between.right (h : Between t k ctx) (hs : Sorted t (plug ctx (node l q c r)))
    (hk : t.key q < k) : Between t k (.right l q c :: ctx) := by
  refine ⟨fun p hp => ?_, h.after⟩
  simp only [RbTree.before, List.mem_append, List.mem_singleton] at hp
  rcases hp with hp | hp | rfl
  · exact h.before p hp
  · exact ((sorted_plug hs).1 p hp).trans hk
  · exact hk

/-- A key that has been passed on both sides is nowhere in the tree. -/
theorem Between.notMem (h : Between t k ctx) {p : P} (hp : p ∈ (plug ctx leaf).ptrs) :
    t.key p ≠ k := by
  rw [plug_ptrs, ptrs_leaf, List.nil_append, List.mem_append] at hp
  exact hp.elim (fun hp => ne_of_lt (h.before p hp)) fun hp => ne_of_gt (h.after p hp)

end Descent

/-- **The descent of an insertion** stops at a node with the key, or below the node it
has to be hung under. -/
theorem insertFind_spec {t : RbtTree P V} {T : PTree P} (hrep : Represents t T)
    (hs : Sorted t T) (k : ℤ) :
    ∃ res, Loop.Returns (fun n => Loop.run (insertFindStep t k) n (t.root, t.root)) res ∧
      ((∃ q ∈ T.ptrs, t.key q = k ∧ res = .inr q) ∨
        ∃ ctx, T = plug ctx leaf ∧ Between t k ctx ∧ res = .inl (ctxPtr t.nil ctx)) := by
  -- the rounds: the nodes that are left below the place that the loop has come to
  let Inv : ℕ → P × P → Prop := fun n s => ∃ ctx S, T = plug ctx S ∧ n = S.ptrs.length ∧
    s.1 = S.ptr t.nil ∧ (ctx ≠ [] → s.2 = ctxPtr t.nil ctx) ∧ (ctx = [] → s.2 = s.1) ∧
    Between t k ctx
  let Post : P ⊕ P → Prop := fun res => (∃ q ∈ T.ptrs, t.key q = k ∧ res = .inr q) ∨
    ∃ ctx, T = plug ctx leaf ∧ Between t k ctx ∧ res = .inl (ctxPtr t.nil ctx)
  have hround : ∀ n s, Inv n s →
      (∃ m s', insertFindStep t k s = .inl s' ∧ m < n ∧ Inv m s') ∨
        ∃ res, insertFindStep t k s = .inr res ∧ Post res := by
    rintro n ⟨x, prev⟩ ⟨ctx, S, rfl, rfl, hx, hprev, hprev', hb⟩
    obtain rfl : x = S.ptr t.nil := hx
    have hfoc : Focus t ctx S := focus_iff.mpr hrep
    cases S with
    | leaf =>
      refine Or.inr ⟨.inl (ctxPtr t.nil ctx), ?_, Or.inr ⟨ctx, rfl, hb, rfl⟩⟩
      have hp : prev = ctxPtr t.nil ctx := by
        rcases eq_or_ne ctx [] with rfl | hctx
        · exact hprev' rfl
        · exact hprev hctx
      simp [insertFindStep, hp]
    | node l q c r =>
      obtain ⟨hq, -, hlq, hrq, -⟩ := hfoc.tree
      -- the key is below, at, or above that of the node
      rcases lt_trichotomy k (t.key q) with hk | hk | hk
      · refine Or.inl ⟨l.ptrs.length, (t.left q, q), ?_, by simp, .left q c r :: ctx, l, rfl, rfl,
          hlq, fun _ => rfl, fun h => absurd h (by simp), hb.left hs hk⟩
        simp [insertFindStep, hq, hk]
      · refine Or.inr ⟨.inr q, ?_, Or.inl ⟨q, by simp [plug_ptrs], hk.symm, rfl⟩⟩
        simp [insertFindStep, hq, hk]
      · refine Or.inl ⟨r.ptrs.length, (t.right q, q), ?_, by simp; omega, .right l q c :: ctx, r,
          rfl, rfl, hrq, fun _ => rfl, fun h => absurd h (by simp), hb.right hs hk⟩
        simp [insertFindStep, hq, hk, not_lt_of_gt hk]
  exact Loop.returns_of_variant hround T.ptrs.length (t.root, t.root)
    ⟨[], T, rfl, rfl, hrep.root, fun h => absurd rfl h, fun _ => rfl, between_nil⟩

/-! ### Hanging the new node -/

/-- The assignments of `RBT_insertNode` between its descent and its repair loop. -/
def hang (t : RbtTree P V) (target prev : P) : RbtTree P V :=
  let t := t.setParent target prev
  let t := if prev = t.nil then t.setRoot target else t
  let t := if t.key target < t.key prev then t.setLeft prev target
    else t.setRight prev target
  let t := t.setLeft target t.nil
  let t := t.setRight target t.nil
  t.setColor target .red

section Hang

variable {t : RbtTree P V} {target : P} {ctx : List (Frame P)}

theorem sameKeys_hang {prev : P} : SameKeys t (hang t target prev) := by
  constructor <;> · dsimp only [hang]; split_ifs <;> rfl

/-- Writing the links of a node that is not in the tree changes nothing in the tree. -/
theorem sameAt_init {p q : P} (hq : q ≠ target) : SameAt t (((t.setLeft target p).setRight target
    p).setColor target red) q :=
  ⟨rfl, Function.update_of_ne hq _ _, Function.update_of_ne hq _ _, Function.update_of_ne hq _ _⟩

/-- **The new node takes the empty place the descent has found**, on the side its key
belongs to. At an empty tree the source also writes a child pointer of the sentinel. -/
theorem HoldsCtx.hang (h : HoldsCtx t t.nil ctx) (hn : (before ctx ++ after ctx).Nodup)
    (hfresh : target ∉ before ctx ++ after ctx) (hb : Between t (t.key target) ctx) :
    HoldsCtx (hang t target (ctxPtr t.nil ctx)) target ctx := by
  -- the nodes of the context are not the new one, which alone has been written
  have hs₀ : ∀ q ∈ before ctx ++ after ctx, SameAt t (t.setParent target (ctxPtr t.nil ctx)) q := by
    intro q hq
    have hqt : q ≠ target := fun he => hfresh (he ▸ hq)
    exact ⟨Function.update_of_ne hqt _ _, rfl, rfl, rfl⟩
  have h₀ : HoldsCtx (t.setParent target (ctxPtr t.nil ctx)) t.nil ctx := h.congr rfl rfl hs₀
  have hout : ∀ t' : RbtTree P V, HoldsCtx t' target ctx → HoldsCtx (((t'.setLeft target
      t'.nil).setRight target t'.nil).setColor target red) target ctx := by
    refine fun t' h' => h'.congr rfl rfl fun q hq => sameAt_init ?_
    rintro rfl
    exact hfresh hq
  rcases ctx with _ | ⟨f, ctx⟩
  · change (hang t target t.nil).root = target
    dsimp only [RbTree.hang]
    rw [if_pos (show t.nil = (t.setParent target t.nil).nil from rfl)]
    split_ifs <;> rfl
  cases f with
  | left q c r =>
    have hq : q ≠ t.nil := h.1
    have hk : t.key target < t.key q := hb.after q (by simp [after])
    have hdef : hang t target q = (((((t.setParent target q).setLeft q target).setLeft target
        t.nil).setRight target t.nil).setColor target red) := by
      dsimp only [RbTree.hang]
      rw [if_neg (show q ≠ (t.setParent target q).nil from hq), if_pos (show
        (t.setParent target q).key target < (t.setParent target q).key q from hk)]
      rfl
    rw [ctxPtr_left, hdef]
    exact hout _ (h₀.relink_left hn target)
  | right l q c =>
    have hq : q ≠ t.nil := h.1
    have hk : ¬t.key target < t.key q := not_lt_of_gt (hb.before q (by simp [before]))
    have hdef : hang t target q = (((((t.setParent target q).setRight q target).setLeft target
        t.nil).setRight target t.nil).setColor target red) := by
      dsimp only [RbTree.hang]
      rw [if_neg (show q ≠ (t.setParent target q).nil from hq), if_neg (show
        ¬(t.setParent target q).key target < (t.setParent target q).key q from hk)]
      rfl
    rw [ctxPtr_right, hdef]
    exact hout _ (h₀.relink_right hn target)

/-- The repair loop starts in a state of its invariant. -/
theorem RedBlack.insertState (h : RedBlack t (plug ctx leaf)) (hb : Between t (t.key target) ctx)
    (ht : target ≠ t.nil) (hfresh : target ∉ (plug ctx leaf).ptrs) :
    InsertState (hang t target (ctxPtr t.nil ctx)) target ctx leaf leaf 0 := by
  have hfoc : Focus t ctx leaf := focus_iff.mpr h.rep
  have hfresh' : target ∉ before ctx ++ after ctx := by
    simpa [plug_ptrs] using hfresh
  have hctx := hfoc.outer.hang hfoc.nodup_ctx hfresh' hb
  obtain ⟨n, hn, hfit⟩ := balanced_plug.mp ⟨h.root_black, h.balanced⟩
  obtain rfl : n = 0 := hn
  have hnil : (hang t target (ctxPtr t.nil ctx)).nil = t.nil := sameKeys_hang.nil
  refine ⟨⟨hctx, ?_, ?_⟩, ?_, rfl, rfl, rfl, rfl, hfit⟩
  · rw [hnil]
    refine ⟨by rw [hnil]; exact ht, ?_, ?_, ?_, ?_, trivial, trivial⟩
    · dsimp only [RbTree.hang]
      split_ifs <;> exact Function.update_self _ _ _
    · rw [ptr_leaf, hnil]
      dsimp only [RbTree.hang]
      split_ifs <;> exact Function.update_self _ _ _
    · rw [ptr_leaf, hnil]
      dsimp only [RbTree.hang]
      split_ifs <;> exact Function.update_self _ _ _
    · dsimp only [RbTree.hang]
      exact Function.update_self _ _ _
  · rw [plug_ptrs]
    exact List.nodup_middle.mpr (List.nodup_cons.mpr ⟨hfresh', hfoc.nodup_ctx⟩)
  · rw [hnil]
    dsimp only [RbTree.hang]
    rw [setColor_color_of_ne (Ne.symm ht)]
    split_ifs <;> exact h.nil_black

end Hang

/-- **What an insertion does to a valid red-black tree.** A key that is there already
changes nothing and its node is returned; a new key puts the new node at its place in
the order, and the tree is red-black again. -/
theorem insertNode_spec {t : RbtTree P V} {T : PTree P} (h : RedBlack t T) (hs : Sorted t T)
    {target : P} (ht : target ≠ t.nil) (hfresh : target ∉ T.ptrs) :
    (∃ q ∈ T.ptrs, t.key q = t.key target ∧
      Loop.Returns (fun n => insertNode n t target) (t, q)) ∨
    ((∀ q ∈ T.ptrs, t.key q ≠ t.key target) ∧ ∃ t' T' A B,
      Loop.Returns (fun n => insertNode n t target) (t', target) ∧ RedBlack t' T' ∧
      SameKeys t t' ∧ T.ptrs = A ++ B ∧ T'.ptrs = A ++ target :: B ∧
      (∀ p ∈ A, t.key p < t.key target) ∧ ∀ p ∈ B, t.key target < t.key p) := by
  obtain ⟨res, hret, ⟨q, hq, hk, rfl⟩ | ⟨ctx, rfl, hb, rfl⟩⟩ := insertFind_spec h.rep hs
    (t.key target)
  · exact Or.inl ⟨q, hq, hk, hret.bind (Loop.returns_pure _)⟩
  · obtain ⟨t', T', hret', hrb, hkeys, hptrs⟩ := adjustAfterInsert_spec (h.insertState hb ht hfresh)
    refine Or.inr ⟨fun q hq => hb.notMem hq, t', T', before ctx, after ctx,
      hret.bind (hret'.map fun t => (t, target)), hrb, sameKeys_hang.trans hkeys,
      by simp [plug_ptrs], ?_, hb.before, hb.after⟩
    simpa [plug_ptrs] using hptrs

omit [DecidableEq P] in
/-- The order after an insertion. -/
theorem sorted_insert {t t' : RbtTree P V} {T T' : PTree P} {target : P} {A B : List P}
    (hs : Sorted t T) (hk : SameKeys t t') (hT : T.ptrs = A ++ B)
    (hT' : T'.ptrs = A ++ target :: B) (hA : ∀ p ∈ A, t.key p < t.key target)
    (hB : ∀ p ∈ B, t.key target < t.key p) : Sorted t' T' := by
  rw [Sorted, hT, List.pairwise_append] at hs
  rw [Sorted, hT', hk.key, List.pairwise_append, List.pairwise_cons]
  refine ⟨hs.1, ⟨hB, hs.2.1⟩, fun p hp q hq => ?_⟩
  rcases List.mem_cons.mp hq with rfl | hq
  · exact hA p hp
  · exact hs.2.2 p hp q hq

end RbTree

end BackendStudy
