import BackendStudy.RbTree.Map

/-!
# The sequence of a tree under insertion and deletion

What an insertion and a deletion do to the keys and payloads of a tree, in order
(`BackendStudy.RbTree.InOrder`): the one puts a pair at its place
(`BackendStudy.RbTree.insertNode_inserts`), the other takes exactly one pair out
(`BackendStudy.RbTree.deleteNode_removes`), whether or not the tree is red-black afterwards. The
node that a deletion returns carries the pair, and cannot be reached from the root any more.

The repair after a deletion starts at the sentinel, and the sentinel has child pointers like any
node, which anything may have been written to. The repair with every child pointer checked before
it is followed (`BackendStudy.RbTree.adjustAfterDeleteChecked`) does the same: no pointer it
follows is one of the sentinel.
-/

namespace BackendStudy

namespace RbTree

open RbtColor PTree

variable {P V : Type*} [DecidableEq P]

/-- The keys and the payloads of a tree, in order. -/
def InOrder (t : RbtTree P V) (es : List (ℤ × V)) : Prop := ∃ T, Represents t T ∧ es = entries t T

/-- A node that child pointers lead to from the root. -/
inductive Reachable (t : RbtTree P V) : P → Prop
  /-- The root. -/
  | root : t.root ≠ t.nil → Reachable t t.root
  /-- A left child. -/
  | left {p : P} : Reachable t p → t.left p ≠ t.nil → Reachable t (t.left p)
  /-- A right child. -/
  | right {p : P} : Reachable t p → t.right p ≠ t.nil → Reachable t (t.right p)

section Shape

variable {t : RbtTree P V} {T : PTree P} {par p q : P}

omit [DecidableEq P] in
theorem PTree.ptr_mem (h : T.ptr t.nil ≠ t.nil) : T.ptr t.nil ∈ T.ptrs := by
  rcases T with _ | ⟨l, x, c, r⟩
  · exact absurd rfl h
  · simp

omit [DecidableEq P] in
/-- The children of a node of a tree are nodes of the tree. -/
theorem Holds.child_mem (h : Holds t par T) (hp : p ∈ T.ptrs) :
    (t.left p ≠ t.nil → t.left p ∈ T.ptrs) ∧ (t.right p ≠ t.nil → t.right p ∈ T.ptrs) := by
  induction T generalizing par with
  | leaf => simp at hp
  | node l x c r ihl ihr =>
    obtain ⟨-, -, hl, hr, -, hhl, hhr⟩ := h
    rw [ptrs_node] at hp ⊢
    rcases List.mem_append.mp hp with hp | hp
    · obtain ⟨h₁, h₂⟩ := ihl hhl hp
      exact ⟨fun hn => List.mem_append_left _ (h₁ hn), fun hn => List.mem_append_left _ (h₂ hn)⟩
    · rcases List.mem_cons.mp hp with rfl | hp
      · rw [hl, hr]
        exact ⟨fun hn => List.mem_append_left _ (PTree.ptr_mem hn), fun hn =>
          List.mem_append_right _ (List.mem_cons_of_mem _ (PTree.ptr_mem hn))⟩
      · obtain ⟨h₁, h₂⟩ := ihr hhr hp
        exact ⟨fun hn => List.mem_append_right _ (List.mem_cons_of_mem _ (h₁ hn)), fun hn =>
          List.mem_append_right _ (List.mem_cons_of_mem _ (h₂ hn))⟩

omit [DecidableEq P] in
/-- Only the nodes of a tree can be reached. -/
theorem Represents.mem_of_reachable (h : Represents t T) (hq : Reachable t q) : q ∈ T.ptrs := by
  induction hq with
  | root hn =>
    have hroot : t.root = T.ptr t.nil := h.root
    rw [hroot] at hn ⊢
    exact PTree.ptr_mem hn
  | left _ hn ih => exact (h.holds.child_mem ih).1 hn
  | right _ hn ih => exact (h.holds.child_mem ih).2 hn

end Shape

/-! ### Insertion -/

/-- **`RBT_insertNode` on a valid red-black tree** returns, and leaves a valid red-black tree. A
key that is there already changes nothing and its node is returned; a new key is put at its place
in the order, with the new node. -/
theorem insertNode_inserts {t : RbtTree P V} (h : Valid t) {target : P} (ht : target ≠ t.nil)
    (hnew : ¬InTree t target) {es : List (ℤ × V)} (hes : InOrder t es) :
    ∃ t' p, Loop.Returns (fun n => insertNode n t target) (t', p) ∧ Valid t' ∧
      (t.key target ∈ es.map Prod.fst → t' = t ∧ InTree t p ∧ t.key p = t.key target) ∧
      (t.key target ∉ es.map Prod.fst → p = target ∧
        ∃ A B, es = A ++ B ∧ InOrder t' (A ++ (t.key target, t.data target) :: B)) := by
  obtain ⟨T, hT, hs⟩ := h
  obtain ⟨T₁, hrep₁, rfl⟩ := hes
  obtain rfl := hrep₁.unique hT.rep
  have hfresh : target ∉ T₁.ptrs := fun hm => hnew ⟨T₁, hrep₁, hm⟩
  have hkeys : t.key target ∈ (entries t T₁).map Prod.fst ↔
      ∃ q ∈ T₁.ptrs, t.key q = t.key target := by
    simp [entries]
  rcases insertNode_spec hT hs ht hfresh with
    ⟨q, hq, hk, hret⟩ | ⟨hno, t', T', A, B, hret, hT', hsame, hAB, hptrs, hA, hB⟩
  · exact ⟨t, q, hret, ⟨T₁, hT, hs⟩, fun _ => ⟨rfl, ⟨T₁, hrep₁, hq⟩, hk⟩,
      fun hnot => absurd (hkeys.mpr ⟨q, hq, hk⟩) hnot⟩
  · refine ⟨t', target, hret, ⟨T', hT', sorted_insert hs hsame hAB hptrs hA hB⟩, fun hin => ?_,
      fun _ => ⟨rfl, A.map fun q => (t.key q, t.data q), B.map fun q => (t.key q, t.data q), ?_,
        T', hT'.rep, ?_⟩⟩
    · obtain ⟨q, hq, hk⟩ := hkeys.mp hin
      exact absurd hk (hno q hq)
    · rw [entries, hAB, List.map_append]
    · rw [entries, hptrs, hsame.key, hsame.data, List.map_append, List.map_cons]

/-- The node of 5 goes below the red node of 4, and the repair rotates twice. -/
theorem insertNode_inserts_sample : ∃ t',
    Loop.Returns (fun n => insertNode n sampleFour 5) (t', 5) ∧ Valid t' ∧
      (t'.left 3, t'.left 5, t'.right 5) = (5, 4, 1) ∧
      ∃ A B, [(4, 4), (6, 6), (7, 7), (9, 9)] = A ++ B ∧ InOrder t' (A ++ (5, 5) :: B) := by
  have hred : RedBlack sampleFour sampleFourTree :=
    ⟨⟨rfl, by simp only [sampleFourTree, Holds]; decide, by decide⟩, rfl, rfl, 2,
      by simp [sampleFourTree]⟩
  have hnew : ¬InTree sampleFour 5 := by
    rintro ⟨T, hT, hm⟩
    obtain rfl := hT.unique hred.rep
    exact absurd hm (by decide)
  obtain ⟨t', p, hret, hv, -, hput⟩ := insertNode_inserts
    ⟨sampleFourTree, hred, by unfold Sorted; decide⟩ (show (5 : Fin 7) ≠ sampleFour.nil by decide)
    hnew ⟨_, hred.rep, rfl⟩
  obtain ⟨rfl, A, B, hAB, horder⟩ := hput (by decide)
  refine ⟨t', hret, hv, ?_, A, B, hAB, horder⟩
  have hlinks : (insertNode 8 sampleFour 5).map (fun r => (r.1.left 3, r.1.left 5, r.1.right 5)) =
      some (5, 4, 1) := by
    decide +kernel
  obtain ⟨r, hr, hlinks⟩ := Option.map_eq_some_iff.mp hlinks
  obtain rfl := ((stable_insertNode sampleFour 5).returns hr).unique hret
  exact hlinks

/-! ### The repair, with its pointers checked -/

/-- What the repair must not do. -/
inductive Fault
  /-- A child pointer of the sentinel is followed. -/
  | nilChild

/-- A child pointer of `p` is followed, and then `k` is done. -/
def follow {α : Type*} (t : RbtTree P V) (p : P) (k : Except Fault α) : Except Fault α :=
  if p = t.nil then .error .nilChild else k

/-- `_leftRotate`, which follows the right child of `x` and the left child of that. -/
def leftRotateChecked (t : RbtTree P V) (x : P) : Except Fault (RbtTree P V) :=
  if t.nil = t.right x then .ok t
  else follow t x (follow t (t.right x) (.ok (leftRotate t x)))

/-- `_rightRotate`, which follows the left child of `y` and the right child of that. -/
def rightRotateChecked (t : RbtTree P V) (y : P) : Except Fault (RbtTree P V) :=
  if t.nil = t.left y then .ok t
  else follow t y (follow t (t.left y) (.ok (rightRotate t y)))

/-- One round of the loop of `_adjustAfterDelete`. It follows a child pointer of the parent to
the sibling, and child pointers of the sibling. -/
def adjustAfterDeleteStepChecked :
    RbtTree P V × P → Except Fault ((RbtTree P V × P) ⊕ RbtTree P V)
  | (t, succesor) =>
    if t.color succesor = .black ∧ t.root ≠ succesor then
      let parent := t.parent succesor
      if succesor = t.right parent then
        follow t parent <|
        let bro := t.left parent
        follow t bro <|
        if t.color bro = .red then do
          let t := t.setColor bro .black
          let t := t.setColor (t.right bro) .red
          let t ← rightRotateChecked t parent
          .ok (.inr t)
        else if t.color (t.left bro) = .black ∧ t.color (t.right bro) = .black then
          let t := t.setColor bro .red
          if t.color parent = .red then .ok (.inr (t.setColor parent .black))
          else .ok (.inl (t, parent))
        else if t.color (t.left bro) = .black then do
          let t := t.setColor bro (t.color parent)
          let t := t.setColor (t.right bro) .black
          let t ← leftRotateChecked t bro
          let t ← rightRotateChecked t parent
          .ok (.inr t)
        else do
          let t := t.setColor bro (t.color parent)
          let t := t.setColor parent .black
          let t := t.setColor (t.left bro) .black
          let t ← rightRotateChecked t parent
          .ok (.inr t)
      else
        follow t parent <|
        let bro := t.right parent
        follow t bro <|
        if t.color bro = .red then do
          let t := t.setColor bro .black
          let t := t.setColor (t.left bro) .red
          let t ← leftRotateChecked t parent
          .ok (.inr t)
        else if t.color (t.right bro) = .black ∧ t.color (t.left bro) = .black then
          let t := t.setColor bro .red
          if t.color parent = .red then .ok (.inr (t.setColor parent .black))
          else .ok (.inl (t, parent))
        else if t.color (t.right bro) = .black then do
          let t := t.setColor bro (t.color parent)
          let t := t.setColor (t.left bro) .black
          let t ← rightRotateChecked t bro
          let t ← leftRotateChecked t parent
          .ok (.inr t)
        else do
          let t := t.setColor bro (t.color parent)
          let t := t.setColor parent .black
          let t := t.setColor (t.right bro) .black
          let t ← leftRotateChecked t parent
          .ok (.inr t)
    else .ok (.inr t)

/-- `_adjustAfterDelete`. -/
def adjustAfterDeleteChecked (fuel : ℕ) (t : RbtTree P V) (succesor : P) :
    Option (Except Fault (RbtTree P V)) :=
  Loop.run (Loop.checked adjustAfterDeleteStepChecked) fuel (t, succesor)

/-- The part of `RBT_deleteNode` after the exchange with the successor. -/
def spliceOutChecked (fuel : ℕ) (t : RbtTree P V) (target : P) :
    Option (Except Fault (RbtTree P V × P)) :=
  let succesor :=
    if t.left target ≠ t.nil then t.left target
    else if t.right target ≠ t.nil then t.right target
    else t.nil
  let parent := t.parent target
  let t := t.setParent succesor parent
  let t :=
    if parent = t.nil then t.setRoot succesor
    else if target = t.left parent then t.setLeft parent succesor
    else t.setRight parent succesor
  let t := t.setColor succesor .black
  if succesor = t.nil ∧ t.color target = .black then
    (adjustAfterDeleteChecked fuel t succesor).map fun r => r.map fun t => (t, target)
  else some (.ok (t, target))

/-- `RBT_deleteNode`, with the pointers checked that its repair follows. -/
def deleteNodeChecked (fuel : ℕ) (t : RbtTree P V) (target : P) :
    Option (Except Fault (RbtTree P V × P)) :=
  if target = t.nil then some (.ok (t, t.nil))
  else if t.left target ≠ t.nil ∨ t.right target ≠ t.nil then
    (getSuccessor fuel t target).bind fun succesor =>
      spliceOutChecked fuel (swapNode t target succesor) succesor
  else spliceOutChecked fuel t target

section Checked

variable {t : RbtTree P V} {ctx : List (Frame P)} {T l r : PTree P} {p x y : P} {c : RbtColor}
  {h : ℕ}

theorem follow_eq {α : Type*} {k : Except Fault α} (hp : p ≠ t.nil) : follow t p k = k :=
  if_neg hp

theorem leftRotateChecked_eq (hx : x ≠ t.nil) : leftRotateChecked t x = .ok (leftRotate t x) := by
  rw [leftRotateChecked]
  by_cases hy : t.nil = t.right x
  · rw [if_pos hy, leftRotate, if_pos hy]
  · rw [if_neg hy, follow_eq hx, follow_eq (Ne.symm hy)]

theorem rightRotateChecked_eq (hy : y ≠ t.nil) :
    rightRotateChecked t y = .ok (rightRotate t y) := by
  rw [rightRotateChecked]
  by_cases hx : t.nil = t.left y
  · rw [if_pos hx, rightRotate, if_pos hx]
  · rw [if_neg hx, follow_eq hy, follow_eq (Ne.symm hx)]

/-- A round does what it does without the checks when the parent and the sibling are nodes. -/
theorem adjustAfterDeleteStepChecked_eq (hp : t.parent x ≠ t.nil) (hb : sibling t x ≠ t.nil) :
    adjustAfterDeleteStepChecked (t, x) = .ok (adjustAfterDeleteStep (t, x)) := by
  unfold adjustAfterDeleteStepChecked adjustAfterDeleteStep
  unfold sibling at hb
  -- colours are set, which leaves the sentinel where it is
  have hleft : ∀ (s : RbtTree P V) (q : P), s.nil = t.nil → q ≠ t.nil →
      leftRotateChecked s q = .ok (leftRotate s q) := fun s q hs hq =>
    leftRotateChecked_eq (hs ▸ hq)
  have hright : ∀ (s : RbtTree P V) (q : P), s.nil = t.nil → q ≠ t.nil →
      rightRotateChecked s q = .ok (rightRotate s q) := fun s q hs hq =>
    rightRotateChecked_eq (hs ▸ hq)
  by_cases hgo : t.color x = black ∧ t.root ≠ x
  · simp only [if_pos hgo]
    by_cases hside : x = t.right (t.parent x)
    · rw [if_pos hside] at hb
      simp only [if_pos hside, follow_eq hp, follow_eq hb]
      split_ifs
      · rw [hright]
        exacts [rfl, rfl, hp]
      · rfl
      · rfl
      · rw [hleft]
        · change (rightRotateChecked (leftRotate _ _) _ >>= _) = _
          rw [hright]
          exacts [rfl, sameKeys_leftRotate.nil, hp]
        · rfl
        · exact hb
      · rw [hright]
        exacts [rfl, rfl, hp]
    · rw [if_neg hside] at hb
      simp only [if_neg hside, follow_eq hp, follow_eq hb]
      split_ifs
      · rw [hleft]
        exacts [rfl, rfl, hp]
      · rfl
      · rfl
      · rw [hright]
        · change (leftRotateChecked (rightRotate _ _) _ >>= _) = _
          rw [hleft]
          exacts [rfl, sameKeys_rightRotate.nil, hp]
        · rfl
        · exact hb
      · rw [hleft]
        exacts [rfl, rfl, hp]
  · simp only [if_neg hgo]

/-- The states the loop is in: a subtree in focus, one black node short. -/
def Deficient (s : RbtTree P V × P) : Prop :=
  ∃ ctx T h, s.2 = T.ptr s.1.nil ∧ DeleteState s.1 ctx T h

theorem Deficient.round {s s' : RbtTree P V × P} (hs : Deficient s)
    (hstep : adjustAfterDeleteStep s = .inl s') : Deficient s' := by
  obtain ⟨t, x⟩ := s
  obtain ⟨ctx, T, h, hx, hs⟩ := hs
  obtain rfl : x = T.ptr t.nil := hx
  have hleave : ∀ {ok : Prop}, DeleteState.Leaves t ctx T ok → False := by
    rintro ok ⟨t', -, hleave, -⟩
    exact absurd (hstep.symm.trans hleave) (by simp)
  rcases ctx with _ | ⟨f, ctx⟩
  · exact (hleave hs.exit).elim
  · rcases hs.step with hl | ⟨t', T', hclimb, hs', -⟩
    · exact (hleave hl).elim
    · obtain rfl := Sum.inl.inj (hstep.symm.trans hclimb)
      exact ⟨ctx, T', h + 1, rfl, hs'⟩

/-- **A round follows no child pointer of the sentinel**: the sibling has a node to give, so it is
one. -/
theorem Deficient.checked {s : RbtTree P V × P} (hs : Deficient s) :
    adjustAfterDeleteStepChecked s = .ok (adjustAfterDeleteStep s) := by
  obtain ⟨t, x⟩ := s
  obtain ⟨ctx, T, h, hx, hs⟩ := hs
  obtain rfl : x = T.ptr t.nil := hx
  rcases ctx with _ | ⟨f, ctx⟩
  · have hroot : t.root = T.ptr t.nil := hs.focus.outer
    simp [adjustAfterDeleteStepChecked, adjustAfterDeleteStep, hroot]
  · obtain ⟨bl, y, cy, br, hsib⟩ := hs.sibling_bal.exists_node
    have hne : ∀ q ∈ before (f :: ctx) ++ after (f :: ctx), q ≠ t.nil := fun q hq =>
      Holds.ctx_ne_nil hs.focus.outer hq
    rcases f with ⟨q, c, r⟩ | ⟨l, q, c⟩
    · obtain rfl : r = node bl y cy br := hsib
      obtain ⟨-, -, hpar, hside, hright, -⟩ := hs.reads_left
      refine adjustAfterDeleteStepChecked_eq ?_ ?_
      · rw [hpar]
        exact hne q (by simp [after])
      · rw [sibling, hpar, hright, if_neg hside]
        exact hne y (by simp [after])
    · obtain rfl : l = node bl y cy br := hsib
      obtain ⟨-, -, hpar, hside, hleft, -⟩ := hs.reads_right
      refine adjustAfterDeleteStepChecked_eq ?_ ?_
      · rw [hpar]
        exact hne q (by simp [before])
      · rw [sibling, hpar, hside, if_pos rfl, hleft]
        exact hne y (by simp [before])

theorem spliceOutChecked_eq (h : Focus t ctx (node l x c r))
    (hbal : ∃ n, (node l x c r).Balanced n ∧ Fits ctx c n) (n : ℕ) :
    spliceOutChecked n t x = (spliceOut n t x).map .ok := by
  have hdef : spliceOutChecked n t x =
      if onlyChild t x = t.nil ∧ (unlink t x (onlyChild t x)).color x = black then
        (adjustAfterDeleteChecked n (unlink t x (onlyChild t x)) (onlyChild t x)).map fun r =>
          r.map fun t => (t, x)
      else some (.ok (unlink t x (onlyChild t x), x)) := by
    have hnil : (unlink t x (onlyChild t x)).nil = t.nil := relinkLeft_nil
    rw [← hnil]
    rfl
  rw [hdef, spliceOut_eq]
  by_cases hrepair : onlyChild t x = t.nil ∧ (unlink t x (onlyChild t x)).color x = black
  · rw [if_pos hrepair, if_pos hrepair]
    obtain ⟨hs, hcx⟩ := hrepair
    rw [hs] at hcx ⊢
    obtain ⟨rfl, rfl⟩ : l = leaf ∧ r = leaf := by
      rw [← h.left_eq_nil, ← h.right_eq_nil]
      unfold onlyChild at hs
      split_ifs at hs with hl hr
      · exact absurd hs hl
      · exact absurd hs hr
      · exact ⟨not_not.mp hl, not_not.mp hr⟩
    rw [unlink_color_of_ne h.tree.1, h.tree.2.2.2.2.1] at hcx
    obtain rfl : c = black := hcx
    have hstate : Deficient (unlink t x t.nil, t.nil) :=
      ⟨ctx, leaf, 0, (sameKeys_unlink.nil).symm, h.deleteState hbal⟩
    rw [adjustAfterDeleteChecked, adjustAfterDelete, Loop.run_checked
      (fun _ _ hs hstep => hs.round hstep) (fun _ hs => hs.checked) n hstate]
    rw [Option.map_map, Option.map_map]
    rfl
  · rw [if_neg hrepair, if_neg hrepair]
    rfl

/-- **The repair follows no child pointer of the sentinel**, in a deletion of any node of a valid
red-black tree. -/
theorem deleteNodeChecked_eq {T : PTree P} (h : RedBlack t T) (hmem : x ∈ T.ptrs) (n : ℕ) :
    deleteNodeChecked n t x = (deleteNode n t x).map .ok := by
  obtain ⟨ctx, l, c, r, rfl⟩ := exists_plug_of_mem hmem
  have hfoc : Focus t ctx (node l x c r) := focus_iff.mpr h.rep
  have hbal := balanced_plug.mp ⟨h.root_black, h.balanced⟩
  rw [deleteNodeChecked, deleteNode, if_neg hfoc.tree.1, if_neg hfoc.tree.1]
  by_cases hchild : t.left x ≠ t.nil ∨ t.right x ≠ t.nil
  · rw [if_pos hchild, if_pos hchild]
    obtain ⟨y, ctx', l', cy, r', hret, hplug, -⟩ := getSuccessor_spec hfoc
    have h' : RedBlack t (plug ctx' (node l' y cy r')) := hplug ▸ h
    have hfoc' : Focus t ctx' (node l' y cy r') := focus_iff.mpr h'.rep
    have hbal' := balanced_plug.mp ⟨h'.root_black, h'.balanced⟩
    rcases hsucc : getSuccessor n t x with _ | y'
    · rfl
    · obtain rfl : y' = y := ((stable_getSuccessor t x).returns hsucc).unique hret
      exact spliceOutChecked_eq (hfoc'.swapNode x y') hbal' n
  · rw [if_neg hchild, if_neg hchild]
    exact spliceOutChecked_eq hfoc hbal n

end Checked

/-! ### Deletion -/

/-- **What `RBT_deleteNode` removes** from a valid red-black tree: it returns, with a repair that
follows no child pointer of the sentinel, a node that the root does not lead to any more and that
carries the key and the payload of the target; and from the pairs of the tree, in order, exactly
that pair is gone. The links of the tree left are those of a tree. -/
theorem deleteNode_removes {t : RbtTree P V} (h : Valid t) (hx : Exchanges t) {target : P}
    (hmem : InTree t target) :
    ∃ t' y, Loop.Returns (fun n => deleteNode n t target) (t', y) ∧
      Loop.Returns (fun n => deleteNodeChecked n t target) (.ok (t', y)) ∧
      InTree t y ∧ ¬Reachable t' y ∧ t'.key y = t.key target ∧ t'.data y = t.data target ∧
      ∃ A B, InOrder t (A ++ (t.key target, t.data target) :: B) ∧ InOrder t' (A ++ B) := by
  obtain ⟨T, hT, hs⟩ := h
  obtain ⟨T₁, hrep₁, hmem⟩ := hmem
  obtain rfl := hrep₁.unique hT.rep
  obtain ⟨t', T', y, A, B, hret, hy, hrep, -, -, -, hkey, hdata, hsplit, hptrs, -⟩ :=
    deleteNode_spec hT hmem
  have hdata := hdata hx
  have hnot : target ∉ A ++ B := by
    have hn := hrep₁.nodup
    rw [hsplit] at hn
    exact (List.nodup_cons.mp (List.nodup_middle.mp hn)).1
  refine ⟨t', y, hret, (hret.map Except.ok).congr fun n => (deleteNodeChecked_eq hT hmem n).symm,
    ⟨T₁, hrep₁, hy⟩, fun hreach => hnot ?_, ?_, ?_, A.map fun q => (t.key q, t.data q),
    B.map fun q => (t.key q, t.data q), ⟨T₁, hrep₁, ?_⟩, T', hrep, ?_⟩
  · -- what stands where `y` would be in the tree left is the target
    rw [← hptrs]
    exact List.mem_map.mpr ⟨y, hrep.mem_of_reachable hreach, Equiv.swap_apply_right _ _⟩
  · rw [hkey, Function.comp_apply, Equiv.swap_apply_right]
  · rw [hdata, Function.comp_apply, Equiv.swap_apply_right]
  · rw [entries, hsplit, List.map_append, List.map_cons]
  · have hent : entries t' T' = (A ++ B).map fun q => (t.key q, t.data q) := by
      rw [← hptrs, List.map_map, entries, hkey, hdata]
      rfl
    rw [hent, List.map_append]

/-- Deleting 9 from the sample. -/
theorem deleteNode_removes_sample : ∃ t' y,
    Loop.Returns (fun n => deleteNode n sample 2) (t', y) ∧ ¬Reachable t' y ∧ t'.key y = 9 := by
  obtain ⟨t', y, hret, -, -, hreach, hkey, -⟩ := deleteNode_removes valid_sample
    (fun _ _ _ => rfl) (inTree_sample (show 2 ∈ sampleTree.ptrs by decide))
  exact ⟨t', y, hret, hreach, hkey⟩

end RbTree

end BackendStudy
