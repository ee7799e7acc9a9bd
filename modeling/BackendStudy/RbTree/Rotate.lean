import BackendStudy.RbTree.Shape

/-!
# Writing into a tree in memory

What one assignment, or one rotation, does to the tree a memory holds. A colour
assignment recolours the node at the focus (`BackendStudy.RbTree.Focus.setColor`); a
rotation turns the subtree at the focus and leaves everything around it in place
(`BackendStudy.RbTree.Focus.leftRotate`, `BackendStudy.RbTree.Focus.rightRotate`). The
part of a rotation that touches the parent, where the two rotations of the source
differ, is one statement of its own (`BackendStudy.RbTree.HoldsCtx.relinkLeft`,
`BackendStudy.RbTree.HoldsCtx.relinkRight`).
-/

namespace BackendStudy

namespace RbTree

open RbtColor PTree

variable {P V : Type*} [DecidableEq P]

/-! ### Distinct addresses at a focus -/

section Distinct

omit [DecidableEq P]

variable {t : RbtTree P V} {ctx : List (Frame P)} {T : PTree P}

theorem Focus.nodup_tree (h : Focus t ctx T) : T.ptrs.Nodup := by
  have hn := h.nodup
  rw [plug_ptrs, List.nodup_append] at hn
  exact (List.nodup_append.mp hn.2.1).1

/-- A node is not below itself. -/
theorem Focus.ne_of_mem {l r : PTree P} {q y : P} {c : RbtColor}
    (h : Focus t ctx (node l q c r)) (hy : y ∈ l.ptrs ++ r.ptrs) : q ≠ y := by
  have hnodup := h.nodup_tree
  simp only [ptrs, List.nodup_append, List.nodup_cons] at hnodup
  rintro rfl
  rcases List.mem_append.mp hy with hl | hr
  · exact hnodup.2.2 q hl q List.mem_cons_self rfl
  · exact hnodup.2.1.1 hr

theorem Focus.nodup_ctx (h : Focus t ctx T) : (before ctx ++ after ctx).Nodup := by
  have hn := h.nodup
  rw [plug_ptrs] at hn
  exact hn.sublist (List.Sublist.append_left (List.sublist_append_right _ _) _)

/-- No node of the focus is a node around it. -/
theorem Focus.notMem_ctx (h : Focus t ctx T) {q : P} (hq : q ∈ T.ptrs) :
    q ∉ before ctx ++ after ctx := by
  have hn := h.nodup
  rw [plug_ptrs, List.nodup_append] at hn
  obtain ⟨-, hta, hd⟩ := hn
  rw [List.mem_append, not_or]
  refine ⟨fun hb => hd q hb q (by simp [hq]) rfl, fun ha => ?_⟩
  exact (List.nodup_append.mp hta).2.2 q hq q ha rfl

theorem ctxPtr_mem {nil : P} (hctx : ctx ≠ []) : ctxPtr nil ctx ∈ before ctx ++ after ctx := by
  rcases ctx with _ | ⟨⟨q, c, r⟩ | ⟨l, q, c⟩, ctx⟩
  · exact absurd rfl hctx
  · simp [after]
  · simp [before]

/-- The parent of the focus is not a node of the focus. -/
theorem Focus.ne_ctxPtr (h : Focus t ctx T) {q : P} (hq : q ∈ T.ptrs) : q ≠ ctxPtr t.nil ctx := by
  rcases eq_or_ne ctx [] with rfl | hctx
  · exact h.tree.ne_nil hq
  · intro he
    exact h.notMem_ctx hq (he ▸ ctxPtr_mem hctx)

theorem Holds.ctx_ne_nil {h : P} (hctx : HoldsCtx t h ctx) {q : P}
    (hq : q ∈ before ctx ++ after ctx) : q ≠ t.nil := by
  induction ctx generalizing h with
  | nil => simp [before, after] at hq
  | cons f ctx ih =>
    cases f with
    | left p c r =>
      obtain ⟨hp, -, -, -, -, hr, hctx⟩ := hctx
      simp only [before, after, List.cons_append, List.mem_append, List.mem_cons] at hq
      rcases hq with hq | rfl | hq | hq
      · exact ih hctx (List.mem_append_left _ hq)
      · exact hp
      · exact hr.ne_nil hq
      · exact ih hctx (List.mem_append_right _ hq)
    | right l p c =>
      obtain ⟨hp, -, -, -, -, hl, hctx⟩ := hctx
      simp only [before, after, List.mem_append, List.mem_singleton] at hq
      rcases hq with (hq | hq | rfl) | hq
      · exact ih hctx (List.mem_append_left _ hq)
      · exact hl.ne_nil hq
      · exact hp
      · exact ih hctx (List.mem_append_right _ hq)

end Distinct

/-! ### What the operations do not touch -/

/-- Two memories agree on everything that is not part of the shape of the tree: the
sentinel, the keys, the payloads and the callback. -/
structure SameKeys (t t' : RbtTree P V) : Prop where
  nil : t'.nil = t.nil
  key : t'.key = t.key
  data : t'.data = t.data
  swapData : t'.swapData = t.swapData

section SameKeys

variable {t t' t'' : RbtTree P V} {p x y : P} {c : RbtColor}

omit [DecidableEq P] in
theorem SameKeys.refl (t : RbtTree P V) : SameKeys t t := ⟨rfl, rfl, rfl, rfl⟩

omit [DecidableEq P] in
theorem SameKeys.trans (h : SameKeys t t') (h' : SameKeys t' t'') : SameKeys t t'' :=
  ⟨h'.nil.trans h.nil, h'.key.trans h.key, h'.data.trans h.data, h'.swapData.trans h.swapData⟩

theorem sameKeys_setColor : SameKeys t (t.setColor p c) := ⟨rfl, rfl, rfl, rfl⟩

theorem sameKeys_leftRotate : SameKeys t (leftRotate t x) := by
  constructor <;> · dsimp only [leftRotate]; split_ifs <;> rfl

theorem sameKeys_rightRotate : SameKeys t (rightRotate t x) := by
  constructor <;> · dsimp only [rightRotate]; split_ifs <;> rfl

/-- A rotation recolours nothing. -/
theorem leftRotate_color : (leftRotate t x).color = t.color := by
  dsimp only [leftRotate]; split_ifs <;> rfl

theorem rightRotate_color : (rightRotate t x).color = t.color := by
  dsimp only [rightRotate]; split_ifs <;> rfl

end SameKeys

/-! ### Colouring a node -/

section SetColor

variable {t : RbtTree P V} {p q : P} {c : RbtColor}

@[simp] theorem setColor_root : (t.setColor p c).root = t.root := rfl

@[simp] theorem setColor_nil : (t.setColor p c).nil = t.nil := rfl

@[simp] theorem setColor_parent : (t.setColor p c).parent = t.parent := rfl

@[simp] theorem setColor_left : (t.setColor p c).left = t.left := rfl

@[simp] theorem setColor_right : (t.setColor p c).right = t.right := rfl

@[simp] theorem setColor_color_self : (t.setColor p c).color p = c := Function.update_self _ _ _

theorem setColor_color_of_ne (h : q ≠ p) : (t.setColor p c).color q = t.color q :=
  Function.update_of_ne h _ _

/-- Colouring a node leaves the sentinel as it is. -/
theorem nil_black_setColor (h : t.color t.nil = black) (hp : p ≠ t.nil) :
    (t.setColor p c).color (t.setColor p c).nil = black :=
  (setColor_color_of_ne (Ne.symm hp)).trans h

theorem nil_black_leftRotate (h : t.color t.nil = black) :
    (leftRotate t p).color (leftRotate t p).nil = black := by
  rw [leftRotate_color, sameKeys_leftRotate.nil, h]

theorem nil_black_rightRotate (h : t.color t.nil = black) :
    (rightRotate t p).color (rightRotate t p).nil = black := by
  rw [rightRotate_color, sameKeys_rightRotate.nil, h]

end SetColor

theorem sameAt_setColor {t : RbtTree P V} {p q : P} {c : RbtColor} (h : q ≠ p) :
    SameAt t (t.setColor p c) q :=
  ⟨rfl, rfl, rfl, Function.update_of_ne h _ _⟩

/-- **Colouring the node at the focus.** -/
theorem Focus.setColor {t : RbtTree P V} {ctx : List (Frame P)} {l r : PTree P} {q : P}
    {c : RbtColor} (h : Focus t ctx (node l q c r)) (c' : RbtColor) :
    Focus (t.setColor q c') ctx (node l q c' r) := by
  obtain ⟨hq, hp, hl, hr, -, hhl, hhr⟩ := h.tree
  have hn : (l.ptrs ++ q :: r.ptrs).Nodup := h.nodup_tree
  have hql : ∀ x ∈ l.ptrs, x ≠ q := fun x hx => (List.nodup_append.mp hn).2.2 x hx q (by simp)
  have hqr : ∀ x ∈ r.ptrs, x ≠ q := by
    rintro x hx rfl
    exact (List.nodup_cons.mp (List.nodup_append.mp hn).2.1).1 hx
  refine ⟨?_, ?_, ?_⟩
  · refine h.outer.congr rfl rfl fun x hx => sameAt_setColor ?_
    rintro rfl
    exact h.notMem_ctx (by simp) hx
  · exact ⟨hq, hp, hl, hr, Function.update_self _ _ _,
      hhl.congr rfl fun x hx => sameAt_setColor (hql x hx),
      hhr.congr rfl fun x hx => sameAt_setColor (hqr x hx)⟩
  · have := h.nodup
    rwa [plug_ptrs] at this ⊢

/-- Colouring the parent of the focus. -/
theorem Focus.setColor_parent {t : RbtTree P V} {f : Frame P} {ctx : List (Frame P)} {T : PTree P}
    (h : Focus t (f :: ctx) T) (c' : RbtColor) :
    Focus (t.setColor f.ptr c') (f.recolor c' :: ctx) T := by
  cases f with
  | left q c r => exact focus_cons.mpr ((focus_cons.mp h).setColor c')
  | right l q c => exact focus_cons.mpr ((focus_cons.mp h).setColor c')

/-- Colouring the sibling of the focus. -/
theorem Focus.setColor_sibling {t : RbtTree P V} {q x : P} {c cx : RbtColor} {a b T : PTree P}
    {ctx : List (Frame P)} (h : Focus t (.right (node a x cx b) q c :: ctx) T) (c' : RbtColor) :
    Focus (t.setColor x c') (.right (node a x c' b) q c :: ctx) T :=
  focus_sibling.mpr ((focus_sibling.mp h).setColor c')

/-- Colouring the sibling of the focus, on the other side. -/
theorem Focus.setColor_sibling' {t : RbtTree P V} {q x : P} {c cx : RbtColor} {a b T : PTree P}
    {ctx : List (Frame P)} (h : Focus t (.left q c (node a x cx b) :: ctx) T) (c' : RbtColor) :
    Focus (t.setColor x c') (.left q c (node a x c' b) :: ctx) T :=
  focus_sibling.mp ((focus_sibling.mpr h).setColor c')

/-! ### Hanging a subtree below the parent -/

/-- The assignment by which a left rotation and a deletion put `y` where the child `x`
of `p` was. -/
def relinkLeft (t : RbtTree P V) (p x y : P) : RbtTree P V :=
  if p = t.nil then t.setRoot y else if x = t.left p then t.setLeft p y else t.setRight p y

/-- The assignments by which a right rotation does the same. -/
def relinkRight (t : RbtTree P V) (p x y : P) : RbtTree P V :=
  let t := if p = t.nil then t.setRoot y else t
  if x = t.right p then t.setRight p y else t.setLeft p y

section Relink

variable {t : RbtTree P V} {p x y : P}

@[simp] theorem relinkLeft_nil : (relinkLeft t p x y).nil = t.nil := by
  unfold relinkLeft; split_ifs <;> rfl

@[simp] theorem relinkLeft_parent : (relinkLeft t p x y).parent = t.parent := by
  unfold relinkLeft; split_ifs <;> rfl

@[simp] theorem relinkLeft_color : (relinkLeft t p x y).color = t.color := by
  unfold relinkLeft; split_ifs <;> rfl

@[simp] theorem relinkRight_nil : (relinkRight t p x y).nil = t.nil := by
  dsimp only [relinkRight]; split_ifs <;> rfl

@[simp] theorem relinkRight_parent : (relinkRight t p x y).parent = t.parent := by
  dsimp only [relinkRight]; split_ifs <;> rfl

@[simp] theorem relinkRight_color : (relinkRight t p x y).color = t.color := by
  dsimp only [relinkRight]; split_ifs <;> rfl

theorem relinkLeft_left {q : P} (h : q ≠ p) : (relinkLeft t p x y).left q = t.left q := by
  unfold relinkLeft
  split_ifs
  · rfl
  · exact Function.update_of_ne h _ _
  · rfl

theorem relinkLeft_right {q : P} (h : q ≠ p) : (relinkLeft t p x y).right q = t.right q := by
  unfold relinkLeft
  split_ifs
  · rfl
  · rfl
  · exact Function.update_of_ne h _ _

theorem relinkRight_left {q : P} (h : q ≠ p) : (relinkRight t p x y).left q = t.left q := by
  dsimp only [relinkRight]
  split_ifs <;> first | rfl | exact Function.update_of_ne h _ _

theorem relinkRight_right {q : P} (h : q ≠ p) : (relinkRight t p x y).right q = t.right q := by
  dsimp only [relinkRight]
  split_ifs <;> first | rfl | exact Function.update_of_ne h _ _

omit [DecidableEq P] in
/-- A change at one node leaves the subtree beside it and the context above it. -/
theorem holds_apart {t' : RbtTree P V} {q : P} {T : PTree P} {ctx : List (Frame P)}
    (hs : ∀ z, z ≠ q → SameAt t t' z) (hnil : t'.nil = t.nil) (hroot : t'.root = t.root)
    (hT : Holds t q T) (hctx : HoldsCtx t q ctx) (hqT : q ∉ T.ptrs)
    (hqc : q ∉ before ctx ++ after ctx) :
    Holds t' q T ∧ HoldsCtx t' q ctx :=
  ⟨hT.congr hnil fun z hz => hs z (ne_of_mem_of_not_mem hz hqT),
    hctx.congr hnil hroot fun z hz => hs z (ne_of_mem_of_not_mem hz hqc)⟩

/-- Replacing the left child pointer of the innermost frame. -/
theorem HoldsCtx.relink_left {q : P} {c : RbtColor} {r : PTree P} {ctx : List (Frame P)}
    (h : HoldsCtx t x (.left q c r :: ctx))
    (hn : (before (.left q c r :: ctx) ++ after (.left q c r :: ctx)).Nodup) (y : P) :
    HoldsCtx (t.setLeft q y) y (.left q c r :: ctx) := by
  obtain ⟨hq, hp, -, hr, hc, hhr, hctx⟩ := h
  have hqc : q ∉ before ctx ++ (r.ptrs ++ after ctx) := (List.nodup_middle.mp hn).notMem
  simp only [List.mem_append, not_or] at hqc
  have hs : ∀ z, z ≠ q → SameAt t (t.setLeft q y) z := fun z hz =>
    ⟨rfl, Function.update_of_ne hz _ _, rfl, rfl⟩
  obtain ⟨hhr', hctx'⟩ := holds_apart hs rfl rfl hhr hctx hqc.2.1 (by simp [hqc.1, hqc.2.2])
  exact ⟨hq, hp, Function.update_self _ _ _, hr, hc, hhr', hctx'⟩

/-- Replacing the right child pointer of the innermost frame. -/
theorem HoldsCtx.relink_right {q : P} {c : RbtColor} {l : PTree P} {ctx : List (Frame P)}
    (h : HoldsCtx t x (.right l q c :: ctx))
    (hn : (before (.right l q c :: ctx) ++ after (.right l q c :: ctx)).Nodup) (y : P) :
    HoldsCtx (t.setRight q y) y (.right l q c :: ctx) := by
  obtain ⟨hq, hp, hl, -, hc, hhl, hctx⟩ := h
  have hn' : (before ctx ++ l.ptrs ++ q :: after ctx).Nodup := by
    simpa [before, after] using hn
  have hqc : q ∉ before ctx ++ l.ptrs ++ after ctx := (List.nodup_middle.mp hn').notMem
  simp only [List.mem_append, not_or] at hqc
  have hs : ∀ z, z ≠ q → SameAt t (t.setRight q y) z := fun z hz =>
    ⟨rfl, rfl, Function.update_of_ne hz _ _, rfl⟩
  obtain ⟨hhl', hctx'⟩ := holds_apart hs rfl rfl hhl hctx hqc.1.2 (by simp [hqc.1.1, hqc.2])
  exact ⟨hq, hp, hl, Function.update_self _ _ _, hc, hhl', hctx'⟩

omit [DecidableEq P] in
/-- A pointer to a node is not the pointer to a subtree that does not hold the node. -/
theorem ne_ptr_of_notMem {nil : P} {T : PTree P} (hx : x ≠ nil) (hT : x ∉ T.ptrs) :
    x ≠ T.ptr nil := by
  cases T with
  | leaf => exact hx
  | node l q c r =>
    rintro rfl
    exact hT (by simp)

/-- **A left rotation or a deletion hangs `y` below the parent of `x`.** -/
theorem HoldsCtx.relinkLeft {ctx : List (Frame P)} (h : HoldsCtx t x ctx) (hx : x ≠ t.nil)
    (hxc : x ∉ before ctx ++ after ctx) (hn : (before ctx ++ after ctx).Nodup) (y : P) :
    HoldsCtx (relinkLeft t (ctxPtr t.nil ctx) x y) y ctx := by
  rcases ctx with _ | ⟨f, ctx⟩
  · simp [RbTree.relinkLeft, HoldsCtx, RbtTree.setRoot]
  cases f with
  | left q c r =>
    have hl : x = t.left q := h.2.2.1.symm
    have hdef : RbTree.relinkLeft t q x y = t.setLeft q y := by
      rw [RbTree.relinkLeft, if_neg h.1, if_pos hl]
    rw [ctxPtr_left, hdef]
    exact h.relink_left hn y
  | right l q c =>
    have hl : x ≠ t.left q := by
      rw [h.2.2.1]
      exact ne_ptr_of_notMem hx fun hm => hxc (by simp [before, hm])
    have hdef : RbTree.relinkLeft t q x y = t.setRight q y := by
      rw [RbTree.relinkLeft, if_neg h.1, if_neg hl]
    rw [ctxPtr_right, hdef]
    exact h.relink_right hn y

/-- **A right rotation hangs `y` below the parent of `x`**, whatever it writes into the
sentinel when there is no parent. -/
theorem HoldsCtx.relinkRight {ctx : List (Frame P)} (h : HoldsCtx t x ctx) (hx : x ≠ t.nil)
    (hxc : x ∉ before ctx ++ after ctx) (hn : (before ctx ++ after ctx).Nodup) (y : P) :
    HoldsCtx (relinkRight t (ctxPtr t.nil ctx) x y) y ctx := by
  rcases ctx with _ | ⟨f, ctx⟩
  · simp only [RbTree.relinkRight, ctxPtr_nil, if_true, HoldsCtx]
    split_ifs <;> rfl
  cases f with
  | left q c r =>
    have hr : x ≠ t.right q := by
      rw [h.2.2.2.1]
      exact ne_ptr_of_notMem hx fun hm => hxc (by simp [after, hm])
    have hdef : RbTree.relinkRight t q x y = t.setLeft q y := by
      simp only [RbTree.relinkRight, if_neg h.1, if_neg hr]
    rw [ctxPtr_left, hdef]
    exact h.relink_left hn y
  | right l q c =>
    have hr : x = t.right q := h.2.2.2.1.symm
    have hdef : RbTree.relinkRight t q x y = t.setRight q y := by
      simp only [RbTree.relinkRight, if_neg h.1, if_pos hr]
    rw [ctxPtr_right, hdef]
    exact h.relink_right hn y

end Relink

/-! ### Rotations -/

omit [DecidableEq P] in
theorem SameAt.trans {t t' t'' : RbtTree P V} {q : P} (h : SameAt t t' q) (h' : SameAt t' t'' q) :
    SameAt t t'' q :=
  ⟨h'.parent.trans h.parent, h'.left.trans h.left, h'.right.trans h.right, h'.color.trans h.color⟩

/-- **What a rotation leaves in memory**, up to which side it turns to: `x` has gone
down, `y` has come up into its place, and the subtree at `z` has changed its parent
from `y` to `x`. -/
structure Turned (t t' : RbtTree P V) (ctx : List (Frame P)) (x y z : P) : Prop where
  nil : t'.nil = t.nil
  outer : HoldsCtx t' y ctx
  same : ∀ q, q ≠ ctxPtr t.nil ctx → q ≠ x → q ≠ y → q ≠ z → SameAt t t' q
  parent_x : x ≠ z → t'.parent x = y
  parent_y : y ≠ x → y ≠ z → t'.parent y = ctxPtr t.nil ctx
  parent_z : z ≠ t.nil → t'.parent z = x
  child_z : z ≠ ctxPtr t.nil ctx → z ≠ x → z ≠ y → t'.left z = t.left z ∧ t'.right z = t.right z
  color : t'.color = t.color

section Turned

omit [DecidableEq P]

variable {t t' : RbtTree P V} {ctx : List (Frame P)} {a b d : PTree P} {x y : P} {cx cy : RbtColor}

/-- The subtree that changes its parent is held below the new one. -/
theorem Turned.holds_inner (h : Turned t t' ctx x y (b.ptr t.nil)) (hb : Holds t y b)
    (hn : b.ptrs.Nodup) (hp : ctxPtr t.nil ctx ∉ b.ptrs) (hx : x ∉ b.ptrs) (hy : y ∉ b.ptrs) :
    Holds t' x b := by
  cases b with
  | leaf => trivial
  | node l z c r =>
    obtain ⟨hz, -, hl, hr, hc, hhl, hhr⟩ := hb
    simp only [ptrs_node, List.nodup_append, List.nodup_cons, List.mem_append, List.mem_cons,
      not_or] at hn hp hx hy
    have hs : ∀ q, q ∈ l.ptrs ∨ q ∈ r.ptrs → q ≠ z → SameAt t t' q := by
      intro q hq hqz
      refine h.same q ?_ ?_ ?_ hqz
      · rintro rfl
        exact hq.elim hp.1 hp.2.2
      · rintro rfl
        exact hq.elim hx.1 hx.2.2
      · rintro rfl
        exact hq.elim hy.1 hy.2.2
    obtain ⟨hzl, hzr⟩ := h.child_z (Ne.symm hp.2.1) (Ne.symm hx.2.1) (Ne.symm hy.2.1)
    refine ⟨by rw [h.nil]; exact hz, h.parent_z hz, by rw [h.nil]; exact hzl.trans hl,
      by rw [h.nil]; exact hzr.trans hr, by rw [h.color]; exact hc, ?_, ?_⟩
    · exact hhl.congr h.nil fun q hq => hs q (Or.inl hq) (hn.2.2 q hq z (Or.inl rfl))
    · refine hhr.congr h.nil fun q hq => hs q (Or.inr hq) ?_
      rintro rfl
      exact hn.2.1.1 hq

/-- The subtrees at the two ends of a rotation stay as they are. -/
theorem Turned.holds_outer (h : Turned t t' ctx x y (b.ptr t.nil)) {par : P} (ha : Holds t par a)
    (hp : ctxPtr t.nil ctx ∉ a.ptrs) (hx : x ∉ a.ptrs) (hy : y ∉ a.ptrs)
    (hb : ∀ q ∈ a.ptrs, q ∉ b.ptrs) : Holds t' par a :=
  ha.congr h.nil fun q hq => h.same q (fun he => hp (he ▸ hq)) (fun he => hx (he ▸ hq))
    (fun he => hy (he ▸ hq)) (ne_ptr_of_notMem (ha.ne_nil hq) (hb q hq))

/-- A left rotation, read off its memory. -/
theorem Turned.focus_left (ht : Turned t t' ctx x y (b.ptr t.nil))
    (h : Focus t ctx (node a x cx (node b y cy d))) (hxl : t'.left x = t.left x)
    (hxr : t'.right x = b.ptr t.nil) (hyl : t'.left y = x) (hyr : t'.right y = t.right y) :
    Focus t' ctx (node (node a x cx b) y cy d) := by
  obtain ⟨hx, -, hlx, -, hcx, ha, hy, -, -, hry, hcy, hb, hd⟩ := h.tree
  have hn : (a.ptrs ++ x :: (b.ptrs ++ y :: d.ptrs)).Nodup := h.nodup_tree
  have hp : ctxPtr t.nil ctx ∉ a.ptrs ++ x :: (b.ptrs ++ y :: d.ptrs) :=
    fun hm => h.ne_ctxPtr hm rfl
  simp only [List.nodup_append, List.nodup_cons, List.mem_cons, List.mem_append, not_or] at hn hp
  obtain ⟨hna, ⟨⟨hxb, hxy, hxd⟩, hnb, ⟨hyd, hnd⟩, hby⟩, hax⟩ := hn
  have hyb : y ∉ b.ptrs := fun hm => hby y hm y (Or.inl rfl) rfl
  refine ⟨?_, ?_, ?_⟩
  · exact ht.outer
  · rw [ht.nil]
    refine ⟨by rw [ht.nil]; exact hy,
      ht.parent_y (Ne.symm hxy) (ne_ptr_of_notMem hy hyb), hyl,
      by rw [ht.nil]; exact hyr.trans hry, by rw [ht.color]; exact hcy,
      ⟨by rw [ht.nil]; exact hx, ht.parent_x (ne_ptr_of_notMem hx hxb),
        by rw [ht.nil]; exact hxl.trans hlx, by rw [ht.nil]; exact hxr,
        by rw [ht.color]; exact hcx, ?_, ?_⟩, ?_⟩
    · exact ht.holds_outer ha hp.1 (fun hm => hax x hm x (Or.inl rfl) rfl)
        (fun hm => hax y hm y (by simp) rfl) fun q hq hm => hax q hq q (by simp [hm]) rfl
    · exact ht.holds_inner hb hnb hp.2.2.1 hxb hyb
    · exact ht.holds_outer hd hp.2.2.2.2 hxd hyd fun q hq hm => hby q hm q (Or.inr hq) rfl
  · have := h.nodup
    rw [plug_ptrs] at this ⊢
    simpa using this

/-- A right rotation, read off its memory. -/
theorem Turned.focus_right (ht : Turned t t' ctx y x (b.ptr t.nil))
    (h : Focus t ctx (node (node a x cx b) y cy d)) (hyr : t'.right y = t.right y)
    (hyl : t'.left y = b.ptr t.nil) (hxr : t'.right x = y) (hxl : t'.left x = t.left x) :
    Focus t' ctx (node a x cx (node b y cy d)) := by
  obtain ⟨hy, -, -, hry, hcy, ⟨hx, -, hlx, -, hcx, ha, hb⟩, hd⟩ := h.tree
  have hn : ((a.ptrs ++ x :: b.ptrs) ++ y :: d.ptrs).Nodup := h.nodup_tree
  have hp : ctxPtr t.nil ctx ∉ (a.ptrs ++ x :: b.ptrs) ++ y :: d.ptrs :=
    fun hm => h.ne_ctxPtr hm rfl
  simp only [List.nodup_append, List.nodup_cons, List.mem_cons, List.mem_append, not_or] at hn hp
  obtain ⟨⟨hna, ⟨hxb, hnb⟩, hax⟩, ⟨hyd, hnd⟩, hy'⟩ := hn
  have hxy : x ≠ y := hy' x (by simp) y (by simp)
  have hyb : y ∉ b.ptrs := fun hm => hy' y (by simp [hm]) y (by simp) rfl
  refine ⟨?_, ?_, ?_⟩
  · exact ht.outer
  · rw [ht.nil]
    refine ⟨by rw [ht.nil]; exact hx,
      ht.parent_y hxy (ne_ptr_of_notMem hx hxb), by rw [ht.nil]; exact hxl.trans hlx, hxr,
      by rw [ht.color]; exact hcx, ?_,
      ⟨by rw [ht.nil]; exact hy, ht.parent_x (ne_ptr_of_notMem hy hyb),
        by rw [ht.nil]; exact hyl, by rw [ht.nil]; exact hyr.trans hry,
        by rw [ht.color]; exact hcy, ?_, ?_⟩⟩
    · exact ht.holds_outer ha hp.1.1 (fun hm => hy' y (by simp [hm]) y (by simp) rfl)
        (fun hm => hax x hm x (by simp) rfl) fun q hq hm => hax q hq q (by simp [hm]) rfl
    · exact ht.holds_inner hb hnb hp.1.2.2 hyb hxb
    · exact ht.holds_outer hd hp.2.2 hyd (fun hm => hy' x (by simp) x (by simp [hm]) rfl)
        fun q hq hm => hy' q (by simp [hm]) q (by simp [hq]) rfl
  · have := h.nodup
    rw [plug_ptrs] at this ⊢
    simpa using this

end Turned

section Rotations

variable {t : RbtTree P V} {ctx : List (Frame P)} {a b d : PTree P} {p x y z : P}
  {cx cy : RbtColor}

/-- What both rotations assign after the parent has been relinked: `y` takes the place
of `x` below `p`, and the subtree at `z` goes from `y` to `x`. The assignments to the
other child pointers are left out, they do not touch these fields. -/
def turnParents (t : RbtTree P V) (p x y z : P) : P → P :=
  let parent := Function.update (Function.update t.parent y p) x y
  if z ≠ t.nil then Function.update parent z x else parent

theorem turnParents_self (h : x ≠ z) : turnParents t p x y z x = y := by
  unfold turnParents
  split_ifs <;> simp [h]

theorem turnParents_up (h : y ≠ x) (h' : y ≠ z) : turnParents t p x y z y = p := by
  unfold turnParents
  split_ifs <;> simp [h, h']

theorem turnParents_moved (h : z ≠ t.nil) : turnParents t p x y z z = x := by
  simp [turnParents, h]

theorem turnParents_of_ne {q : P} (hx : q ≠ x) (hy : q ≠ y) (hz : q ≠ z) :
    turnParents t p x y z q = t.parent q := by
  unfold turnParents
  split_ifs <;> simp [hx, hy, hz]

/-- `_leftRotate`, as one assignment to each field. -/
theorem leftRotate_eq (hp : t.parent x = p) (hy : t.right x = y) (hz : t.left y = z)
    (hne : y ≠ t.nil) : leftRotate t x =
      { relinkLeft t p x y with
        parent := turnParents t p x y z
        left := Function.update (relinkLeft t p x y).left y x
        right := Function.update (relinkLeft t p x y).right x z } := by
  have h₁ : ¬t.nil = t.right x := by
    rw [hy]
    exact Ne.symm hne
  have h₂ : leftRotate t x =
      let t₂ := ((((relinkLeft t p x y).setParent y p).setLeft y x).setParent x y).setRight x z
      if z ≠ t₂.nil then t₂.setParent z x else t₂ := by
    rw [leftRotate, if_neg h₁]
    subst hp hy hz
    rfl
  rw [h₂]
  by_cases h : z = t.nil <;>
    simp [turnParents, RbtTree.setParent, RbtTree.setLeft, RbtTree.setRight, h]

/-- `_rightRotate`, as one assignment to each field. -/
theorem rightRotate_eq (hp : t.parent y = p) (hx : t.left y = x) (hz : t.right x = z)
    (hne : x ≠ t.nil) : rightRotate t y =
      { relinkRight t p y x with
        parent := turnParents t p y x z
        right := Function.update (relinkRight t p y x).right x y
        left := Function.update (relinkRight t p y x).left y z } := by
  have h₁ : ¬t.nil = t.left y := by
    rw [hx]
    exact Ne.symm hne
  have h₂ : rightRotate t y =
      let t₂ := ((((relinkRight t p y x).setParent x p).setRight x y).setParent y x).setLeft y z
      if z ≠ t₂.nil then t₂.setParent z y else t₂ := by
    rw [rightRotate, if_neg h₁]
    subst hp hx hz
    rfl
  rw [h₂]
  by_cases h : z = t.nil <;>
    simp [turnParents, RbtTree.setParent, RbtTree.setLeft, RbtTree.setRight, h]

/-- **A left rotation turns the subtree at the focus.** -/
theorem Focus.leftRotate (h : Focus t ctx (node a x cx (node b y cy d))) :
    Focus (leftRotate t x) ctx (node (node a x cx b) y cy d) := by
  obtain ⟨hx, hpx, -, hrx, -, -, hy, -, hly, -, -, -, -⟩ := h.tree
  have hxp : x ≠ ctxPtr t.nil ctx := h.ne_ctxPtr (by simp)
  have hyp : y ≠ ctxPtr t.nil ctx := h.ne_ctxPtr (by simp)
  have hxy : x ≠ y := h.ne_of_mem (by simp)
  have h₁ : HoldsCtx (relinkLeft t (ctxPtr t.nil ctx) x y) y ctx :=
    h.outer.relinkLeft hx (h.notMem_ctx (by simp)) h.nodup_ctx y
  rw [leftRotate_eq hpx hrx hly hy]
  refine Turned.focus_left ⟨relinkLeft_nil, ?_, ?_, turnParents_self, turnParents_up,
    turnParents_moved, ?_, relinkLeft_color⟩ h ?_ (Function.update_self _ _ _)
    (Function.update_self _ _ _) ?_
  · refine h₁.congr rfl rfl fun q hq => ?_
    have hq' : ∀ w ∈ (node a x cx (node b y cy d)).ptrs, q ≠ w := by
      rintro w hw rfl
      exact h.notMem_ctx hw hq
    have hqz : q ≠ b.ptr t.nil :=
      ne_ptr_of_notMem (Holds.ctx_ne_nil h.outer hq) fun hm => hq' q (by simp [hm]) rfl
    refine ⟨?_, Function.update_of_ne (hq' y (by simp)) _ _,
      Function.update_of_ne (hq' x (by simp)) _ _, rfl⟩
    rw [relinkLeft_parent]
    exact turnParents_of_ne (hq' x (by simp)) (hq' y (by simp)) hqz
  · exact fun q hqp hqx hqy hqz => ⟨turnParents_of_ne hqx hqy hqz,
      (Function.update_of_ne hqy _ _).trans (relinkLeft_left hqp),
      (Function.update_of_ne hqx _ _).trans (relinkLeft_right hqp), by simp⟩
  · exact fun hzp hzx hzy => ⟨(Function.update_of_ne hzy _ _).trans (relinkLeft_left hzp),
      (Function.update_of_ne hzx _ _).trans (relinkLeft_right hzp)⟩
  · exact (Function.update_of_ne hxy _ _).trans (relinkLeft_left hxp)
  · exact (Function.update_of_ne (Ne.symm hxy) _ _).trans (relinkLeft_right hyp)

/-- **A right rotation turns the subtree at the focus.** -/
theorem Focus.rightRotate (h : Focus t ctx (node (node a x cx b) y cy d)) :
    Focus (rightRotate t y) ctx (node a x cx (node b y cy d)) := by
  obtain ⟨hy, hpy, hly, -, -, ⟨hx, -, -, hrx, -, -, -⟩, -⟩ := h.tree
  have hxp : x ≠ ctxPtr t.nil ctx := h.ne_ctxPtr (by simp)
  have hyp : y ≠ ctxPtr t.nil ctx := h.ne_ctxPtr (by simp)
  have hxy : x ≠ y := (h.ne_of_mem (by simp)).symm
  have h₁ : HoldsCtx (relinkRight t (ctxPtr t.nil ctx) y x) x ctx :=
    h.outer.relinkRight hy (h.notMem_ctx (by simp)) h.nodup_ctx x
  rw [rightRotate_eq hpy hly hrx hx]
  refine Turned.focus_right ⟨relinkRight_nil, ?_, ?_, turnParents_self, turnParents_up,
    turnParents_moved, ?_, relinkRight_color⟩ h ?_ (Function.update_self _ _ _)
    (Function.update_self _ _ _) ?_
  · refine h₁.congr rfl rfl fun q hq => ?_
    have hq' : ∀ w ∈ (node (node a x cx b) y cy d).ptrs, q ≠ w := by
      rintro w hw rfl
      exact h.notMem_ctx hw hq
    have hqz : q ≠ b.ptr t.nil :=
      ne_ptr_of_notMem (Holds.ctx_ne_nil h.outer hq) fun hm => hq' q (by simp [hm]) rfl
    refine ⟨?_, Function.update_of_ne (hq' y (by simp)) _ _,
      Function.update_of_ne (hq' x (by simp)) _ _, rfl⟩
    rw [relinkRight_parent]
    exact turnParents_of_ne (hq' y (by simp)) (hq' x (by simp)) hqz
  · exact fun q hqp hqy hqx hqz => ⟨turnParents_of_ne hqy hqx hqz,
      (Function.update_of_ne hqy _ _).trans (relinkRight_left hqp),
      (Function.update_of_ne hqx _ _).trans (relinkRight_right hqp), by simp⟩
  · exact fun hzp hzy hzx => ⟨(Function.update_of_ne hzy _ _).trans (relinkRight_left hzp),
      (Function.update_of_ne hzx _ _).trans (relinkRight_right hzp)⟩
  · exact (Function.update_of_ne (Ne.symm hxy) _ _).trans (relinkRight_right hyp)
  · exact (Function.update_of_ne hxy _ _).trans (relinkRight_left hxp)

end Rotations

end RbTree

end BackendStudy
