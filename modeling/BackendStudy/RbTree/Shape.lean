import BackendStudy.RbTree.Model
import Mathlib.Data.List.Nodup

/-!
# The tree a memory holds

The nodes reachable from the root of an `RBT_TREE` form a binary tree of pointers.
This file says so: `BackendStudy.RbTree.PTree` is the shape of such a tree, coloured
and with the address of every node, `BackendStudy.RbTree.Represents` says that a
memory holds it, with all parent links in place, and
`BackendStudy.RbTree.PTree.Balanced` is the colour discipline of a red-black tree.

The operations work in the middle of a tree and climb, so the tree is also read as a
*focus*: the subtree the operation stands at, and the list of frames from there up to
the root (`BackendStudy.RbTree.Focus`). The two readings are the same
(`BackendStudy.RbTree.focus_iff`), a step up or down does not change the memory
(`BackendStudy.RbTree.focus_cons`), and the order of the pointers in the tree is the
frames' order around the order of the focus (`BackendStudy.RbTree.plug_ptrs`), which is
why an operation that keeps the order at its focus keeps the order of the tree.
-/

namespace BackendStudy

namespace RbTree

open RbtColor

variable {P V : Type*}

/-! ### Trees of pointers -/

/-- A binary tree of coloured nodes, each with its address. -/
inductive PTree (P : Type*)
  /-- The sentinel. -/
  | leaf : PTree P
  /-- A node: left subtree, address, colour, right subtree. -/
  | node (l : PTree P) (q : P) (c : RbtColor) (r : PTree P) : PTree P

namespace PTree

/-- The pointer to a tree. -/
def ptr (nil : P) : PTree P → P
  | leaf => nil
  | node _ q _ _ => q

/-- The colour a pointer to the tree shows: the sentinel is black. -/
def rootColor : PTree P → RbtColor
  | leaf => black
  | node _ _ c _ => c

/-- The addresses of the nodes, in order. -/
def ptrs : PTree P → List P
  | leaf => []
  | node l q _ r => l.ptrs ++ q :: r.ptrs

/-- **The colour discipline**: no red node has a red child, and every path down to the
sentinel meets the same number `n` of black nodes. -/
def Balanced : PTree P → ℕ → Prop
  | leaf, n => n = 0
  | node l _ red r, n => l.rootColor = black ∧ r.rootColor = black ∧ l.Balanced n ∧ r.Balanced n
  | node l _ black r, n => ∃ m, n = m + 1 ∧ l.Balanced m ∧ r.Balanced m

@[simp] theorem ptr_leaf (nil : P) : (leaf : PTree P).ptr nil = nil := rfl

@[simp] theorem ptr_node (nil : P) (l : PTree P) (q : P) (c : RbtColor) (r : PTree P) :
    (node l q c r).ptr nil = q := rfl

@[simp] theorem rootColor_leaf : (leaf : PTree P).rootColor = black := rfl

@[simp] theorem rootColor_node (l : PTree P) (q : P) (c : RbtColor) (r : PTree P) :
    (node l q c r).rootColor = c := rfl

@[simp] theorem ptrs_leaf : (leaf : PTree P).ptrs = [] := rfl

@[simp] theorem ptrs_node (l : PTree P) (q : P) (c : RbtColor) (r : PTree P) :
    (node l q c r).ptrs = l.ptrs ++ q :: r.ptrs := rfl

@[simp] theorem balanced_leaf {n : ℕ} : (leaf : PTree P).Balanced n ↔ n = 0 := Iff.rfl

@[simp] theorem balanced_red {l r : PTree P} {q : P} {n : ℕ} :
    (node l q red r).Balanced n ↔
      l.rootColor = black ∧ r.rootColor = black ∧ l.Balanced n ∧ r.Balanced n := Iff.rfl

@[simp] theorem balanced_black_succ {l r : PTree P} {q : P} {n : ℕ} :
    (node l q black r).Balanced (n + 1) ↔ l.Balanced n ∧ r.Balanced n := by
  constructor
  · rintro ⟨m, hm, hl, hr⟩
    obtain rfl : n = m := by omega
    exact ⟨hl, hr⟩
  · rintro ⟨hl, hr⟩
    exact ⟨n, rfl, hl, hr⟩

theorem balanced_black {l r : PTree P} {q : P} {n : ℕ} :
    (node l q black r).Balanced n ↔ ∃ m, n = m + 1 ∧ l.Balanced m ∧ r.Balanced m := Iff.rfl

/-- The black height of a balanced tree is unique. -/
theorem Balanced.unique {T : PTree P} {m n : ℕ} (hm : T.Balanced m) (hn : T.Balanced n) :
    m = n := by
  induction T generalizing m n with
  | leaf => exact hm.trans hn.symm
  | node l q c r ihl _ =>
    cases c with
    | red => exact ihl hm.2.2.1 hn.2.2.1
    | black =>
      obtain ⟨m', rfl, hl, -⟩ := hm
      obtain ⟨n', rfl, hl', -⟩ := hn
      rw [ihl hl hl']

/-- A tree of positive black height is not the sentinel. -/
theorem Balanced.exists_node {T : PTree P} {n : ℕ} (h : T.Balanced (n + 1)) :
    ∃ l q c r, T = node l q c r := by
  cases T with
  | leaf => exact absurd (balanced_leaf.mp h) (Nat.succ_ne_zero n)
  | node l q c r => exact ⟨l, q, c, r, rfl⟩

end PTree

open PTree

/-! ### Frames -/

/-- One step of the way from a subtree up to the root: the parent of the hole, with the
sibling on its other side. -/
inductive Frame (P : Type*)
  /-- The hole is the left child. -/
  | left (q : P) (c : RbtColor) (r : PTree P) : Frame P
  /-- The hole is the right child. -/
  | right (l : PTree P) (q : P) (c : RbtColor) : Frame P

namespace Frame

/-- The parent of the hole. -/
def ptr : Frame P → P
  | left q _ _ => q
  | right _ q _ => q

/-- The colour of the parent of the hole. -/
def color : Frame P → RbtColor
  | left _ c _ => c
  | right _ _ c => c

/-- The sibling of the hole. -/
def sibling : Frame P → PTree P
  | left _ _ r => r
  | right l _ _ => l

/-- The tree with the hole filled. -/
def fill : Frame P → PTree P → PTree P
  | left q c r, T => node T q c r
  | right l q c, T => node l q c T

/-- A frame with the colour of its node replaced. -/
def recolor : Frame P → RbtColor → Frame P
  | left q _ r, c => left q c r
  | right l q _, c => right l q c

@[simp] theorem ptr_left (q : P) (c : RbtColor) (r : PTree P) : (left q c r).ptr = q := rfl

@[simp] theorem ptr_right (q : P) (c : RbtColor) (l : PTree P) : (right l q c).ptr = q := rfl

@[simp] theorem color_left (q : P) (c : RbtColor) (r : PTree P) : (left q c r).color = c := rfl

@[simp] theorem color_right (q : P) (c : RbtColor) (l : PTree P) : (right l q c).color = c := rfl

@[simp] theorem fill_left (q : P) (c : RbtColor) (r T : PTree P) :
    (left q c r).fill T = node T q c r := rfl

@[simp] theorem fill_right (q : P) (c : RbtColor) (l T : PTree P) :
    (right l q c).fill T = node l q c T := rfl

@[simp] theorem recolor_left (q : P) (c c' : RbtColor) (r : PTree P) :
    (left q c r).recolor c' = left q c' r := rfl

@[simp] theorem recolor_right (q : P) (c c' : RbtColor) (l : PTree P) :
    (right l q c).recolor c' = right l q c' := rfl

end Frame

/-- The pointer to the parent of the hole of a list of frames, innermost first. -/
def ctxPtr (nil : P) : List (Frame P) → P
  | [] => nil
  | f :: _ => f.ptr

/-- The tree around a hole, with the hole filled. -/
def plug : List (Frame P) → PTree P → PTree P
  | [], T => T
  | f :: ctx, T => plug ctx (f.fill T)

/-- The pointers of a list of frames that come before the hole, in order. -/
def before : List (Frame P) → List P
  | [] => []
  | .left _ _ _ :: ctx => before ctx
  | .right l q _ :: ctx => before ctx ++ (l.ptrs ++ [q])

/-- The pointers of a list of frames that come after the hole, in order. -/
def after : List (Frame P) → List P
  | [] => []
  | .left q _ r :: ctx => q :: r.ptrs ++ after ctx
  | .right _ _ _ :: ctx => after ctx

@[simp] theorem ctxPtr_nil (nil : P) : ctxPtr nil ([] : List (Frame P)) = nil := rfl

@[simp] theorem ctxPtr_left (nil q : P) (c : RbtColor) (r : PTree P) (ctx : List (Frame P)) :
    ctxPtr nil (.left q c r :: ctx) = q := rfl

@[simp] theorem ctxPtr_right (nil q : P) (c : RbtColor) (l : PTree P) (ctx : List (Frame P)) :
    ctxPtr nil (.right l q c :: ctx) = q := rfl

@[simp] theorem plug_nil (T : PTree P) : plug [] T = T := rfl

@[simp] theorem plug_left (q : P) (c : RbtColor) (r T : PTree P) (ctx : List (Frame P)) :
    plug (.left q c r :: ctx) T = plug ctx (node T q c r) := rfl

@[simp] theorem plug_right (q : P) (c : RbtColor) (l T : PTree P) (ctx : List (Frame P)) :
    plug (.right l q c :: ctx) T = plug ctx (node l q c T) := rfl

/-- **The order of a tree around its focus.** -/
theorem plug_ptrs (ctx : List (Frame P)) (T : PTree P) :
    (plug ctx T).ptrs = before ctx ++ (T.ptrs ++ after ctx) := by
  induction ctx generalizing T with
  | nil => simp [before, after]
  | cons f ctx ih => cases f <;> simp [ih, before, after]

/-- Every node of a tree is the root of some focus. -/
theorem exists_plug_of_mem {T : PTree P} {x : P} (hx : x ∈ T.ptrs) :
    ∃ ctx l c r, T = plug ctx (node l x c r) := by
  suffices key : ∀ (T : PTree P) (ctx : List (Frame P)), x ∈ T.ptrs →
      ∃ ctx' l c r, plug ctx T = plug ctx' (node l x c r) from key T [] hx
  intro T
  induction T with
  | leaf => intro ctx h; simp at h
  | node l q c r ihl ihr =>
    intro ctx h
    rcases List.mem_append.mp h with hl | hr
    · exact ihl (.left q c r :: ctx) hl
    · rcases List.mem_cons.mp hr with rfl | hr
      · exact ⟨ctx, l, c, r, rfl⟩
      · exact ihr (.right l q c :: ctx) hr

/-! ### Colours around a hole -/

/-- **A context fits a subtree**: filling the hole with a subtree of root colour `c`
and black height `n` gives a red-black tree. -/
def Fits : List (Frame P) → RbtColor → ℕ → Prop
  | [], c, _ => c = black
  | f :: ctx, c, n => match f.color with
    | red => c = black ∧ f.sibling.rootColor = black ∧ f.sibling.Balanced n ∧ Fits ctx red n
    | black => f.sibling.Balanced n ∧ Fits ctx black (n + 1)

@[simp] theorem fits_nil {c : RbtColor} {n : ℕ} : Fits ([] : List (Frame P)) c n ↔ c = black :=
  Iff.rfl

@[simp] theorem fits_left_red {q : P} {r : PTree P} {ctx : List (Frame P)} {c : RbtColor}
    {n : ℕ} : Fits (.left q red r :: ctx) c n ↔
      c = black ∧ r.rootColor = black ∧ r.Balanced n ∧ Fits ctx red n := Iff.rfl

@[simp] theorem fits_left_black {q : P} {r : PTree P} {ctx : List (Frame P)} {c : RbtColor}
    {n : ℕ} : Fits (.left q black r :: ctx) c n ↔ r.Balanced n ∧ Fits ctx black (n + 1) := Iff.rfl

@[simp] theorem fits_right_red {q : P} {l : PTree P} {ctx : List (Frame P)} {c : RbtColor}
    {n : ℕ} : Fits (.right l q red :: ctx) c n ↔
      c = black ∧ l.rootColor = black ∧ l.Balanced n ∧ Fits ctx red n := Iff.rfl

@[simp] theorem fits_right_black {q : P} {l : PTree P} {ctx : List (Frame P)} {c : RbtColor}
    {n : ℕ} : Fits (.right l q black :: ctx) c n ↔ l.Balanced n ∧ Fits ctx black (n + 1) := Iff.rfl

/-- A context that takes a red subtree takes a black one. -/
theorem Fits.black {ctx : List (Frame P)} {c : RbtColor} {n : ℕ} (h : Fits ctx c n) :
    Fits ctx black n := by
  cases ctx with
  | nil => rfl
  | cons f ctx => rcases f with ⟨q, _ | _, r⟩ | ⟨l, q, _ | _⟩ <;> simp_all

/-- **Validity is decided at the focus**: a tree is red-black with a black root exactly
when its focus is balanced and the context fits it. -/
theorem balanced_plug {ctx : List (Frame P)} {T : PTree P} :
    ((plug ctx T).rootColor = black ∧ ∃ m, (plug ctx T).Balanced m) ↔
      ∃ n, T.Balanced n ∧ Fits ctx T.rootColor n := by
  induction ctx generalizing T with
  | nil =>
    simp only [plug_nil, fits_nil]
    exact ⟨fun ⟨hc, m, hm⟩ => ⟨m, hm, hc⟩, fun ⟨m, hm, hc⟩ => ⟨hc, m, hm⟩⟩
  | cons f ctx ih =>
    rcases f with ⟨q, c, r⟩ | ⟨l, q, c⟩
    · rw [plug_left, ih]
      cases c with
      | red =>
        simp only [balanced_red, rootColor_node, fits_left_red]
        exact ⟨fun ⟨n, ⟨h1, h2, h3, h4⟩, h5⟩ => ⟨n, h3, h1, h2, h4, h5⟩,
          fun ⟨n, h3, h1, h2, h4, h5⟩ => ⟨n, ⟨h1, h2, h3, h4⟩, h5⟩⟩
      | black =>
        simp only [balanced_black, rootColor_node, fits_left_black]
        exact ⟨fun ⟨_, ⟨m, rfl, h1, h2⟩, h3⟩ => ⟨m, h1, h2, h3⟩,
          fun ⟨m, h1, h2, h3⟩ => ⟨m + 1, ⟨m, rfl, h1, h2⟩, h3⟩⟩
    · rw [plug_right, ih]
      cases c with
      | red =>
        simp only [balanced_red, rootColor_node, fits_right_red]
        exact ⟨fun ⟨n, ⟨h1, h2, h3, h4⟩, h5⟩ => ⟨n, h4, h2, h1, h3, h5⟩,
          fun ⟨n, h4, h2, h1, h3, h5⟩ => ⟨n, ⟨h1, h2, h3, h4⟩, h5⟩⟩
      | black =>
        simp only [balanced_black, rootColor_node, fits_right_black]
        exact ⟨fun ⟨_, ⟨m, rfl, h1, h2⟩, h3⟩ => ⟨m, h2, h1, h3⟩,
          fun ⟨m, h2, h1, h3⟩ => ⟨m + 1, ⟨m, rfl, h1, h2⟩, h3⟩⟩

/-! ### A memory holds a tree -/

/-- **A memory holds a subtree** below the parent `par`: every node has its parent
link, its child pointers and its colour in place. -/
def Holds (t : RbtTree P V) : P → PTree P → Prop
  | _, leaf => True
  | par, node l q c r => q ≠ t.nil ∧ t.parent q = par ∧ t.left q = l.ptr t.nil ∧
      t.right q = r.ptr t.nil ∧ t.color q = c ∧ Holds t q l ∧ Holds t q r

/-- **A memory holds a context** around the hole whose content is pointed to by `h`. -/
def HoldsCtx (t : RbtTree P V) : P → List (Frame P) → Prop
  | h, [] => t.root = h
  | h, .left q c r :: ctx => q ≠ t.nil ∧ t.parent q = ctxPtr t.nil ctx ∧ t.left q = h ∧
      t.right q = r.ptr t.nil ∧ t.color q = c ∧ Holds t q r ∧ HoldsCtx t q ctx
  | h, .right l q c :: ctx => q ≠ t.nil ∧ t.parent q = ctxPtr t.nil ctx ∧
      t.left q = l.ptr t.nil ∧ t.right q = h ∧ t.color q = c ∧ Holds t q l ∧ HoldsCtx t q ctx

/-- **The memory represents a tree**: the root points to it, the sentinel is the parent
of its root, and no two nodes share an address. -/
structure Represents (t : RbtTree P V) (T : PTree P) : Prop where
  root : t.root = T.ptr t.nil
  holds : Holds t t.nil T
  nodup : T.ptrs.Nodup

/-- **The memory represents a tree, read at a focus.** -/
structure Focus (t : RbtTree P V) (ctx : List (Frame P)) (T : PTree P) : Prop where
  outer : HoldsCtx t (T.ptr t.nil) ctx
  tree : Holds t (ctxPtr t.nil ctx) T
  nodup : (plug ctx T).ptrs.Nodup

theorem focus_nil {t : RbtTree P V} {T : PTree P} : Focus t [] T ↔ Represents t T :=
  ⟨fun h => ⟨h.outer, h.tree, h.nodup⟩, fun h => ⟨h.root, h.holds, h.nodup⟩⟩

/-- A step up or down the tree. -/
theorem focus_cons {t : RbtTree P V} {f : Frame P} {ctx : List (Frame P)} {T : PTree P} :
    Focus t (f :: ctx) T ↔ Focus t ctx (f.fill T) := by
  constructor
  · rintro ⟨hc, ht, hn⟩
    cases f with
    | left q c r =>
      obtain ⟨h1, h2, h3, h4, h5, h6, h7⟩ := hc
      exact ⟨h7, ⟨h1, h2, h3, h4, h5, ht, h6⟩, hn⟩
    | right l q c =>
      obtain ⟨h1, h2, h3, h4, h5, h6, h7⟩ := hc
      exact ⟨h7, ⟨h1, h2, h3, h4, h5, h6, ht⟩, hn⟩
  · rintro ⟨hc, ht, hn⟩
    cases f with
    | left q c r =>
      obtain ⟨h1, h2, h3, h4, h5, h6, h7⟩ := ht
      exact ⟨⟨h1, h2, h3, h4, h5, h7, hc⟩, h6, hn⟩
    | right l q c =>
      obtain ⟨h1, h2, h3, h4, h5, h6, h7⟩ := ht
      exact ⟨⟨h1, h2, h3, h4, h5, h6, hc⟩, h7, hn⟩

/-- A step from one child to the other. -/
theorem focus_sibling {t : RbtTree P V} {q : P} {c : RbtColor} {ctx : List (Frame P)}
    {S T : PTree P} : Focus t (.right S q c :: ctx) T ↔ Focus t (.left q c T :: ctx) S :=
  (focus_cons (f := .right S q c)).trans (focus_cons (f := .left q c T)).symm

/-- The two readings of a memory agree. -/
theorem focus_iff {t : RbtTree P V} {ctx : List (Frame P)} {T : PTree P} :
    Focus t ctx T ↔ Represents t (plug ctx T) := by
  induction ctx generalizing T with
  | nil => exact focus_nil
  | cons f ctx ih => rw [focus_cons, ih]; rfl

/-! ### Reading the memory at a focus -/

theorem Holds.ne_nil {t : RbtTree P V} {par x : P} {T : PTree P} (h : Holds t par T)
    (hx : x ∈ T.ptrs) : x ≠ t.nil := by
  induction T generalizing par with
  | leaf => simp at hx
  | node l q c r ihl ihr =>
    obtain ⟨hq, -, -, -, -, hl, hr⟩ := h
    rcases List.mem_append.mp hx with hx | hx
    · exact ihl hl hx
    · rcases List.mem_cons.mp hx with rfl | hx
      · exact hq
      · exact ihr hr hx

/-- The colour read through a pointer to a subtree is its root colour, the sentinel
being black. -/
theorem Holds.color {t : RbtTree P V} {par : P} {T : PTree P} (h : Holds t par T)
    (hnil : t.color t.nil = black) : t.color (T.ptr t.nil) = T.rootColor := by
  cases T with
  | leaf => exact hnil
  | node l q c r => exact h.2.2.2.2.1

theorem Focus.ne_nil {t : RbtTree P V} {ctx : List (Frame P)} {T : PTree P} {x : P}
    (h : Focus t ctx T) (hx : x ∈ (plug ctx T).ptrs) : x ≠ t.nil :=
  (focus_iff.mp h).holds.ne_nil hx

/-- **The memory determines the tree.** -/
theorem Holds.unique {t : RbtTree P V} {par : P} {T T' : PTree P} (h : Holds t par T)
    (h' : Holds t par T') (hptr : T.ptr t.nil = T'.ptr t.nil) : T = T' := by
  induction T generalizing par T' with
  | leaf =>
    cases T' with
    | leaf => rfl
    | node l q c r => exact absurd hptr.symm h'.1
  | node l q c r ihl ihr =>
    cases T' with
    | leaf => exact absurd hptr h.1
    | node l' q' c' r' =>
      obtain rfl : q = q' := hptr
      obtain ⟨-, -, hl, hr, hc, hhl, hhr⟩ := h
      obtain ⟨-, -, hl', hr', hc', hhl', hhr'⟩ := h'
      rw [ihl hhl hhl' (hl.symm.trans hl'), ihr hhr hhr' (hr.symm.trans hr'), ← hc, ← hc']

theorem Represents.unique {t : RbtTree P V} {T T' : PTree P} (h : Represents t T)
    (h' : Represents t T') : T = T' :=
  h.holds.unique h'.holds (h.root.symm.trans h'.root)

/-! ### Red-black trees in memory -/

/-- **A memory holds a red-black tree**, its order apart: the sentinel and the root are
black, no red node has a red child and all paths have the same number of black nodes. -/
structure RedBlack (t : RbtTree P V) (T : PTree P) : Prop where
  rep : Represents t T
  nil_black : t.color t.nil = black
  root_black : T.rootColor = black
  balanced : ∃ n, T.Balanced n

/-- **The keys are in order**, strictly increasing from left to right. -/
def Sorted (t : RbtTree P V) (T : PTree P) : Prop :=
  T.ptrs.Pairwise fun p q => t.key p < t.key q

/-- **A valid red-black tree**: the memory holds one, and its keys are in order. -/
def Valid (t : RbtTree P V) : Prop := ∃ T, RedBlack t T ∧ Sorted t T

/-- A node of the tree a memory holds. -/
def InTree (t : RbtTree P V) (q : P) : Prop := ∃ T, Represents t T ∧ q ∈ T.ptrs

/-! ### Frame conditions -/

/-- Two memories agree on the links and the colour of a node. -/
structure SameAt (t t' : RbtTree P V) (q : P) : Prop where
  parent : t'.parent q = t.parent q
  left : t'.left q = t.left q
  right : t'.right q = t.right q
  color : t'.color q = t.color q

/-- A subtree is held as long as none of its nodes is written. -/
theorem Holds.congr {t t' : RbtTree P V} {par : P} {T : PTree P} (h : Holds t par T)
    (hnil : t'.nil = t.nil) (hs : ∀ q ∈ T.ptrs, SameAt t t' q) : Holds t' par T := by
  induction T generalizing par with
  | leaf => trivial
  | node l q c r ihl ihr =>
    obtain ⟨hq, hp, hl, hr, hc, hhl, hhr⟩ := h
    have hsq := hs q (by simp)
    refine ⟨hnil ▸ hq, hsq.parent.trans hp, ?_, ?_, hsq.color.trans hc,
      ihl hhl fun x hx => hs x (by simp [hx]), ihr hhr fun x hx => hs x (by simp [hx])⟩
    · rw [hsq.left, hl, hnil]
    · rw [hsq.right, hr, hnil]

/-- A context is held as long as none of its nodes is written. -/
theorem HoldsCtx.congr {t t' : RbtTree P V} {h : P} {ctx : List (Frame P)}
    (hctx : HoldsCtx t h ctx) (hnil : t'.nil = t.nil) (hroot : t'.root = t.root)
    (hs : ∀ q ∈ before ctx ++ after ctx, SameAt t t' q) : HoldsCtx t' h ctx := by
  induction ctx generalizing h with
  | nil => exact hroot.trans hctx
  | cons f ctx ih =>
    cases f with
    | left q c r =>
      obtain ⟨hq, hp, hl, hr, hc, hhr, hctx⟩ := hctx
      have hsq := hs q (by simp [after])
      refine ⟨hnil ▸ hq, ?_, hsq.left.trans hl, ?_, hsq.color.trans hc,
        hhr.congr hnil fun x hx => hs x (by simp [after, hx]), ih hctx fun x hx => hs x ?_⟩
      · rw [hsq.parent, hp, hnil]
      · rw [hsq.right, hr, hnil]
      · simp only [before, after, List.mem_append, List.mem_cons] at hx ⊢
        rcases hx with hx | hx
        · exact Or.inl hx
        · exact Or.inr (Or.inr hx)
    | right l q c =>
      obtain ⟨hq, hp, hl, hr, hc, hhl, hctx⟩ := hctx
      have hsq := hs q (by simp [before])
      refine ⟨hnil ▸ hq, ?_, ?_, hsq.right.trans hr, hsq.color.trans hc,
        hhl.congr hnil fun x hx => hs x (by simp [before, hx]), ih hctx fun x hx => hs x ?_⟩
      · rw [hsq.parent, hp, hnil]
      · rw [hsq.left, hl, hnil]
      · simp only [before, after, List.mem_append] at hx ⊢
        rcases hx with hx | hx
        · exact Or.inl (Or.inl hx)
        · exact Or.inr hx

/-- A focus is kept as long as no node of the tree is written. -/
theorem Focus.congr {t t' : RbtTree P V} {ctx : List (Frame P)} {T : PTree P} (h : Focus t ctx T)
    (hnil : t'.nil = t.nil) (hroot : t'.root = t.root)
    (hs : ∀ q ∈ (plug ctx T).ptrs, SameAt t t' q) : Focus t' ctx T := by
  rw [plug_ptrs] at hs
  refine ⟨?_, ?_, h.nodup⟩
  · rw [hnil]
    exact h.outer.congr hnil hroot fun q hq => hs q (by simp_all only [List.mem_append]; tauto)
  · rw [hnil]
    exact h.tree.congr hnil fun q hq => hs q (by simp [hq])

end RbTree

end BackendStudy
