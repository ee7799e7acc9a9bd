import BackendStudy.LinkedList.Heap

/-!
# Deleting the lists

`clearList` deletes the nodes along `head` and then the nodes along `head2`. The two loops do the
same to a memory: that the first one sets the link of a node to null before it deletes the node
leaves no trace (`BackendStudy.LinkedList.clearFirstStep_eq`). A loop deletes the nodes of a path
(`BackendStudy.LinkedList.returns_of_clear`) until it comes to null, or to a node that is no
longer there, whose link it then follows.

It comes to such a node on a list with a loop, back at the node where the loop starts, and on a
list that shares a node with the one that has been deleted. So the nodes are deleted once each
exactly if both lists end and share none (`BackendStudy.LinkedList.clearsOnce_iff`), which is not
so for what `LOOP_LIST` and `CROSS_LIST` build
(`BackendStudy.LinkedList.not_clearsOnce_sample`).
-/

namespace BackendStudy

namespace LinkedList

open Chain Slots Walk

variable {P : Type}

/-- **What `clearList` is for**: it ends without a fault, so it follows no node that it has deleted,
it deletes the nodes that the heads lead to, each of them once, and it leaves no heads. -/
def ClearsOnce [DecidableEq P] (m : Memory P) (l : MyLink P) : Prop :=
  ∃ m' l', Loop.Returns (fun n => clearList m n l) (.ok (m', l')) ∧
    l'.head = none ∧ l'.head2 = none ∧
    ∃ freed, m'.deleted = freed ++ m.deleted ∧ freed.Nodup ∧
      ∀ p, p ∈ freed ↔ Reaches m.links l.head p ∨ Reaches m.links l.head2 p

variable [DecidableEq P]

namespace Memory

/-- A memory from which nodes have been deleted, in order. -/
def free (m : Memory P) (l : List P) : Memory P where
  node := fun p => if p ∈ l then none else m.node p
  deleted := l.reverse ++ m.deleted

variable {m : Memory P} {l l' : List P} {p : P} {n : LinkNode P}

theorem free_node_of_mem (hp : p ∈ l) : (m.free l).node p = none := if_pos hp

theorem free_node_of_not_mem (hp : p ∉ l) : (m.free l).node p = m.node p := if_neg hp

theorem free_links_of_not_mem (hp : p ∉ l) : (m.free l).links p = m.links p := by
  rw [links, free_node_of_not_mem hp, links]

theorem free_free : (m.free l).free l' = m.free (l ++ l') := by
  refine Memory.ext (funext fun p => ?_) (by simp [free])
  by_cases hp' : p ∈ l'
  · rw [free_node_of_mem hp', free_node_of_mem (List.mem_append_right _ hp')]
  · by_cases hp : p ∈ l
    · rw [free_node_of_not_mem hp', free_node_of_mem hp,
        free_node_of_mem (List.mem_append_left _ hp)]
    · rw [free_node_of_not_mem hp', free_node_of_not_mem hp, free_node_of_not_mem]
      simp [hp, hp']

theorem delete_of_node (hn : m.node p = some n) : m.delete p = .ok (m.free [p]) := by
  rw [delete, deref_of_node hn, ok_bind]
  refine congrArg Except.ok (Memory.ext (funext fun q => ?_) rfl)
  by_cases hqp : q = p
  · rw [hqp, free_node_of_mem List.mem_cons_self]
    exact Function.update_self _ _ _
  · rw [free_node_of_not_mem (by simpa using hqp)]
    exact Function.update_of_ne hqp _ _

end Memory

variable {m : Memory P} {l X : List P} {a p : P} {h q : Option P} {n : LinkNode P}

/-! ### One loop -/

/-- A round of the second loop at a node that is there. -/
theorem clearSecondStep_node (hn : m.node p = some n) :
    clearSecondStep (m, some p) = .ok (.inl (m.free [p], m.links p)) := by
  rw [clearSecondStep, Memory.deref_of_node hn, ok_bind, Memory.delete_of_node hn,
    Memory.links_of_node hn]
  rfl

/-- A round at a node that is not there. -/
theorem clearSecondStep_noNode (hn : m.node p = none) :
    clearSecondStep (m, some p) = .error .noNode := by
  rw [clearSecondStep, Memory.deref, hn]
  rfl

/-- **The loops do the same**: the link that the first one sets goes with the node. -/
theorem clearFirstStep_eq (s : Memory P × Option P) : clearFirstStep s = clearSecondStep s := by
  obtain ⟨m, p⟩ := s
  cases p with
  | none => rfl
  | some p =>
    cases hn : m.node p with
    | none =>
      rw [clearSecondStep_noNode hn, clearFirstStep, Memory.deref, hn]
      rfl
    | some n =>
      let m' : Memory P :=
        { m with node := Function.update m.node p (some { n with next := none }) }
      have hset : m.setNext p none = .ok m' := by
        rw [Memory.setNext, Memory.deref_of_node hn]
        rfl
      have hn' : m'.node p = some { n with next := none } := Function.update_self _ _ _
      have hfree : m'.free [p] = m.free [p] := by
        refine Memory.ext (funext fun q => ?_) rfl
        by_cases hqp : q = p
        · rw [hqp, Memory.free_node_of_mem List.mem_cons_self,
            Memory.free_node_of_mem List.mem_cons_self]
        · have hq : q ∉ [p] := by simpa using hqp
          rw [Memory.free_node_of_not_mem hq, Memory.free_node_of_not_mem hq]
          exact Function.update_of_ne hqp _ _
      rw [clearSecondStep_node hn, clearFirstStep, Memory.deref_of_node hn, ok_bind, hset,
        ok_bind, Memory.delete_of_node hn', ok_bind, hfree, Memory.links_of_node hn]
      rfl

/-- A loop from a pointer. -/
def clear (m : Memory P) (fuel : ℕ) (h : Option P) : Option (Except Fault (Memory P)) :=
  Loop.run (Loop.checked clearSecondStep) fuel (m, h)

/-- `clearList` is the loop from the one head and from the other. -/
theorem clearList_eq (m : Memory P) (fuel : ℕ) (l : MyLink P) :
    clearList m fuel l = Loop.andThen (clear m fuel l.head) fun m =>
      Loop.andThen (clear m fuel l.head2) fun m =>
        some (.ok (m, { l with head := none, head2 := none })) := by
  rw [clearList, show clearFirstStep (P := P) = clearSecondStep from funext clearFirstStep_eq]
  rfl

/-- More fuel does not change what `clearList` comes to. -/
theorem stable_clearList (m : Memory P) (l : MyLink P) : Loop.Stable fun n => clearList m n l := by
  simp only [clearList_eq]
  exact (Loop.stable_run _ _).andThen fun _ =>
    (Loop.stable_run _ _).andThen fun _ => Loop.stable_const _

/-- **The loop deletes the nodes of a path**, if they are there and it meets none of them twice. -/
theorem returns_of_clear {r : Except Fault (Memory P)} (hpath : Path m.links h l q)
    (hnode : ∀ a ∈ l, (m.node a).isSome) (hnodup : l.Nodup)
    (hr : Loop.Returns (fun n => clear (m.free l) n q) r) :
    Loop.Returns (fun n => clear m n h) r := by
  induction l generalizing m h with
  | nil =>
    obtain rfl := hpath
    exact hr
  | cons a l ih =>
    obtain ⟨rfl, hl⟩ := hpath
    obtain ⟨ha, hnodup⟩ := List.nodup_cons.mp hnodup
    obtain ⟨n, hn⟩ := Option.isSome_iff_exists.mp (hnode a List.mem_cons_self)
    have hother : ∀ b ∈ l, b ∉ [a] := fun b hb => by
      simpa using ne_of_mem_of_not_mem hb ha
    refine Loop.returns_checked_inl (clearSecondStep_node hn) (ih ?_ (fun b hb => ?_) hnodup ?_)
    · exact hl.congr fun b hb => Memory.free_links_of_not_mem (hother b hb)
    · rw [Memory.free_node_of_not_mem (hother b hb)]
      exact hnode b (List.mem_cons_of_mem _ hb)
    · rw [Memory.free_free]
      exact hr

/-- The loop along a list that ends deletes the list. -/
theorem clear_list (hpath : Path m.links h l none) (hnode : ∀ a ∈ l, (m.node a).isSome) :
    Loop.Returns (fun n => clear m n h) (.ok (m.free l)) :=
  returns_of_clear hpath hnode hpath.nodup (Loop.returns_checked_inr rfl)

/-- The loop that comes to a node that is not there, or no longer. -/
theorem clear_noNode (hpath : Path m.links h X (some a)) (hnode : ∀ b ∈ X, (m.node b).isSome)
    (hnodup : X.Nodup) (ha : a ∈ X ∨ m.node a = none) :
    Loop.Returns (fun n => clear m n h) (.error .noNode) := by
  refine returns_of_clear hpath hnode hnodup (Loop.returns_checked_error ?_)
  refine clearSecondStep_noNode ?_
  by_cases haX : a ∈ X
  · exact Memory.free_node_of_mem haX
  · rw [Memory.free_node_of_not_mem haX]
    exact ha.resolve_left haX

/-! ### Both loops -/

section Both

variable {g : Heap P} {ml : MyLink P} {l₁ l₂ A C : List P} {c : P}

/-- **Two lists without a common node** are deleted, node by node. -/
theorem clearList_disjoint (hp₁ : g.Pointer ml.head) (hp₂ : g.Pointer ml.head2)
    (h₁ : Path g.links ml.head l₁ none) (h₂ : Path g.links ml.head2 l₂ none)
    (hdisj : ∀ a ∈ l₂, a ∉ l₁) :
    Loop.Returns (fun n => clearList g.toMemory n ml)
      (.ok (g.free (l₁ ++ l₂), { ml with head := none, head2 := none })) := by
  have hsecond : Loop.Returns (fun n => clear (g.free l₁) n ml.head2)
      (.ok ((g.free l₁).free l₂)) := by
    refine clear_list (h₂.congr fun a ha => Memory.free_links_of_not_mem (hdisj a ha)) ?_
    intro a ha
    rw [Memory.free_node_of_not_mem (hdisj a ha)]
    exact Heap.isSome_of_path hp₂ h₂ a ha
  rw [Memory.free_free] at hsecond
  simp only [clearList_eq]
  exact (clear_list h₁ (Heap.isSome_of_path hp₁ h₁)).andThen_ok
    (hsecond.andThen_ok (Loop.returns_pure _))

/-- **A list with a loop** at `head`: the first loop comes back to a node it has deleted. -/
theorem clearList_lasso (hp : g.Pointer ml.head) (h : Lasso g.links ml.head A c C) :
    Loop.Returns (fun n => clearList g.toMemory n ml) (.error .noNode) := by
  simp only [clearList_eq]
  exact (clear_noNode h.path (Heap.isSome_of_path hp h.path) h.2.2 (.inl (by simp))).andThen_error

/-- **The second loop comes to a node that has been deleted**, by itself or by the first one. -/
theorem clearList_shared (hp₁ : g.Pointer ml.head) (hp₂ : g.Pointer ml.head2)
    (h₁ : Path g.links ml.head l₁ none) (h₂ : Path g.links ml.head2 X (some a)) (hnodup : X.Nodup)
    (hdisj : ∀ b ∈ X, b ∉ l₁) (ha : a ∈ X ∨ a ∈ l₁) :
    Loop.Returns (fun n => clearList g.toMemory n ml) (.error .noNode) := by
  have hsecond : Loop.Returns (fun n => clear (g.free l₁) n ml.head2) (.error .noNode) := by
    refine clear_noNode (h₂.congr fun b hb => Memory.free_links_of_not_mem (hdisj b hb)) ?_ hnodup
      (ha.imp_right Memory.free_node_of_mem)
    intro b hb
    rw [Memory.free_node_of_not_mem (hdisj b hb)]
    exact Heap.isSome_of_path hp₂ h₂ b hb
  simp only [clearList_eq]
  exact (clear_list h₁ (Heap.isSome_of_path hp₁ h₁)).andThen_ok hsecond.andThen_error

/-- A way along `head2` that comes to a node of the first list. -/
theorem clearList_shared_of_mem (hp₁ : g.Pointer ml.head) (hp₂ : g.Pointer ml.head2)
    (h₁ : Path g.links ml.head l₁ none) (h₂ : Path g.links ml.head2 l q) (hnodup : l.Nodup)
    (hshared : ∃ a ∈ l, a ∈ l₁) :
    Loop.Returns (fun n => clearList g.toMemory n ml) (.error .noNode) := by
  -- up to the first node that the lists have in common
  obtain ⟨a, hfind⟩ := Option.isSome_iff_exists.mp
    (List.find?_isSome (p := fun a => decide (a ∈ l₁)).mpr (by simpa using hshared))
  obtain ⟨ha, X, Y, rfl, hX⟩ := List.find?_eq_some_iff_append.mp hfind
  obtain ⟨m, hpath, rfl, -⟩ := path_append.mp h₂
  refine clearList_shared hp₁ hp₂ h₁ hpath (List.nodup_append.mp hnodup).1 (fun b hb => ?_)
    (.inr (by simpa using ha))
  simpa using hX b hb

/-- **When the nodes are deleted once each**: exactly if both lists come to null and no node can
be reached from both heads. -/
theorem clearsOnce_iff (g : Heap P) (ml : MyLink P) (hp₁ : g.Pointer ml.head)
    (hp₂ : g.Pointer ml.head2) :
    ClearsOnce g.toMemory ml ↔ (∃ n, follow g.links n ml.head = none) ∧
      (∃ n, follow g.links n ml.head2 = none) ∧
      ∀ p, ¬(Reaches g.links ml.head p ∧ Reaches g.links ml.head2 p) := by
  simp only [exists_follow_eq_none_iff]
  constructor
  · rintro ⟨m', l', hret, -⟩
    have hok : ¬Loop.Returns (fun n => clearList g.toMemory n ml) (.error .noNode) := fun herr =>
      absurd (hret.unique herr) (by simp)
    rcases Heap.list_or_lasso hp₁ with ⟨l₁, h₁⟩ | ⟨A, c, C, h₁⟩
    · have hshare : ∀ l q, Path g.links ml.head2 l q → l.Nodup → ∀ a ∈ l, a ∉ l₁ :=
        fun l q h₂ hnodup a ha ha₁ =>
          hok (clearList_shared_of_mem hp₁ hp₂ h₁ h₂ hnodup ⟨a, ha, ha₁⟩)
      rcases Heap.list_or_lasso hp₂ with ⟨l₂, h₂⟩ | ⟨A, c, C, h₂⟩
      · refine ⟨⟨l₁, h₁⟩, ⟨l₂, h₂⟩, fun p hp => ?_⟩
        rw [reaches_iff_of_ends h₁, reaches_iff_of_ends h₂] at hp
        exact hshare l₂ none h₂ h₂.nodup p hp.2 hp.1
      · exact absurd (clearList_shared hp₁ hp₂ h₁ h₂.path h₂.2.2
          (hshare _ _ h₂.path h₂.2.2) (.inl (by simp))) hok
    · exact absurd (clearList_lasso hp₁ h₁) hok
  · rintro ⟨⟨l₁, h₁⟩, ⟨l₂, h₂⟩, hdisj⟩
    simp only [reaches_iff_of_ends h₁, reaches_iff_of_ends h₂] at hdisj
    have hdisj' : ∀ a ∈ l₂, a ∉ l₁ := fun a ha₂ ha₁ => hdisj a ⟨ha₁, ha₂⟩
    refine ⟨_, _, clearList_disjoint hp₁ hp₂ h₁ h₂ hdisj', rfl, rfl, (l₁ ++ l₂).reverse, rfl, ?_,
      fun p => ?_⟩
    · refine List.nodup_reverse.mpr (List.nodup_append.mpr ⟨h₁.nodup, h₂.nodup, ?_⟩)
      rintro a ha₁ b hb rfl
      exact hdisj' a hb ha₁
    · rw [reaches_iff_of_ends h₁, reaches_iff_of_ends h₂, List.mem_reverse, List.mem_append]

end Both

/-- What `SIMPLE_LIST` builds is deleted, each node once. -/
theorem clearsOnce_iff_sample : ∃ (g : Heap ℕ) (l : MyLink ℕ),
    myLink id Heap.empty.toMemory .simpleList = .ok (g.toMemory, l) ∧
      ClearsOnce g.toMemory l := by
  obtain ⟨g, l, hbuilt, hhead, hhead2⟩ := exists_myLink .simpleList
  refine ⟨g, l, hbuilt, (clearsOnce_iff g l hhead hhead2).mpr ?_⟩
  have hends : ∀ r, myLink (P := ℕ) id Heap.empty.toMemory .simpleList = .ok r →
      follow r.1.links 10 r.2.head = none ∧ r.2.head2 = none := by
    intro r hr
    cases hr
    exact ⟨rfl, rfl⟩
  obtain ⟨hend, hnull⟩ := hends _ hbuilt
  refine ⟨⟨10, hend⟩, ⟨0, hnull⟩, ?_⟩
  rintro p ⟨-, n, hn⟩
  rw [hnull, follow_none] at hn
  cases hn

/-- **Neither what `LOOP_LIST` builds nor what `CROSS_LIST` builds** is deleted so, as the
destructor runs it: a node that has been deleted is followed. -/
theorem not_clearsOnce_sample :
    (∃ (g : Heap ℕ) (l : MyLink ℕ), myLink id Heap.empty.toMemory .loopList = .ok (g.toMemory, l) ∧
      g.Pointer l.head ∧ g.Pointer l.head2 ∧ ¬ClearsOnce g.toMemory l) ∧
    ∃ (g : Heap ℕ) (l : MyLink ℕ), myLink id Heap.empty.toMemory .crossList = .ok (g.toMemory, l) ∧
      g.Pointer l.head ∧ g.Pointer l.head2 ∧ ¬ClearsOnce g.toMemory l := by
  have hfails : ∀ mode, mode ≠ .simpleList → ∀ r,
      myLink (P := ℕ) id Heap.empty.toMemory mode = .ok r →
      ∃ n, clearList r.1 n r.2 = some (.error .noNode) := by
    intro mode hmode r hr
    cases mode with
    | simpleList => exact absurd rfl hmode
    | loopList =>
      cases hr
      exact ⟨11, rfl⟩
    | crossList =>
      cases hr
      exact ⟨11, rfl⟩
  have heach : ∀ mode, mode ≠ .simpleList → ∃ (g : Heap ℕ) (l : MyLink ℕ),
      myLink id Heap.empty.toMemory mode = .ok (g.toMemory, l) ∧ g.Pointer l.head ∧
        g.Pointer l.head2 ∧ ¬ClearsOnce g.toMemory l := by
    intro mode hmode
    obtain ⟨g, l, hbuilt, hhead, hhead2⟩ := exists_myLink mode
    refine ⟨g, l, hbuilt, hhead, hhead2, ?_⟩
    rintro ⟨m', l', hret, -⟩
    obtain ⟨n, hn⟩ := hfails mode hmode _ hbuilt
    exact absurd (hret.unique ((stable_clearList _ _).returns hn)) (by simp)
  exact ⟨heach .loopList (by simp), heach .crossList (by simp)⟩

end LinkedList

end BackendStudy
