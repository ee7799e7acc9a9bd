import BackendStudy.Lib.Runs
import BackendStudy.RbTree.Removal
import Mathlib.Data.List.Induction

/-!
# The tree as a finite map

What the callers of `rbtree.c` see: a map from keys to payloads. The contents of a tree
in memory are its keys with their payloads, in order
(`BackendStudy.RbTree.entries`); a search looks a key up in them
(`BackendStudy.RbTree.search_spec`), an insertion adds a key
(`BackendStudy.RbTree.Models.insert`) and a deletion removes one
(`BackendStudy.RbTree.Models.delete`).

The state of a whole run is related to the map that the same operations build from the
empty map (`BackendStudy.RbTree.run_models`). The relation asks for a red-black tree, so
it survives exactly the deletions that do not break the tree.
-/

namespace BackendStudy

namespace RbTree

open RbtColor PTree

variable {P V : Type*} [DecidableEq P]

/-! ### Validity after a deletion -/

section Validity

variable {t t' : RbtTree P V} {T T' : PTree P} {target y : P} {A B : List P}

/-- The order after a deletion, read through the exchange of contents. -/
theorem sorted_delete (hs : Sorted t T) (hk : t'.key = t.key ∘ Equiv.swap target y)
    (hT : T.ptrs = A ++ target :: B) (hT' : T'.ptrs.map (Equiv.swap target y) = A ++ B) :
    Sorted t' T' := by
  have hAB : (A ++ B).Pairwise fun p q => t.key p < t.key q := by
    rw [Sorted, hT] at hs
    exact hs.sublist (List.Sublist.append_left (List.sublist_cons_self _ _) _)
  rw [← hT', List.pairwise_map] at hAB
  rw [Sorted, hk]
  exact hAB

end Validity

/-- **A deletion gives a valid red-black tree exactly when it does not break it.** On a
valid tree `RBT_deleteNode` returns, for every node of the tree. -/
theorem deleteNode_valid_iff {t : RbtTree P V} (h : Valid t) {target : P}
    (hmem : InTree t target) :
    ∃ t' y, Loop.Returns (fun n => deleteNode n t target) (t', y) ∧
      (Valid t' ↔ ¬DeleteBreaks t target) := by
  obtain ⟨T, hT, hs⟩ := h
  obtain ⟨T₁, hrep₁, hmem⟩ := hmem
  obtain rfl := hrep₁.unique hT.rep
  obtain ⟨t', T', y, A, B, hret, -, hrep, -, hnil, -, hkey, -, hsplit, hptrs, hok⟩ :=
    deleteNode_spec hT hmem
  refine ⟨t', y, hret, ?_⟩
  rw [← hok]
  constructor
  · rintro ⟨T₂, hT₂, -⟩
    obtain rfl := hT₂.rep.unique hrep
    exact ⟨hT₂.root_black, hT₂.balanced⟩
  · rintro ⟨hroot, hbal⟩
    exact ⟨T', ⟨hrep, hnil, hroot, hbal⟩, sorted_delete hs hkey hsplit hptrs⟩

/-! ### A tree the deletion breaks -/

/-- A node of a memory that is written down row by row. -/
structure Row where
  /-- `node->parent`. -/
  parent : Fin 7
  /-- `node->left`. -/
  left : Fin 7
  /-- `node->right`. -/
  right : Fin 7
  /-- `node->color`. -/
  color : RbtColor
  /-- `node->key`. -/
  key : ℤ

/-- The memory with the given rows, the sentinel at address 0 and the key of every node
as its payload. What is not written down is a red node of key -10 linked to the sentinel. -/
def ofRows (root : Fin 7) (rows : List Row) : RbtTree (Fin 7) ℤ where
  root := root
  nil := 0
  parent p := (rows.getD p ⟨0, 0, 0, red, -10⟩).parent
  left p := (rows.getD p ⟨0, 0, 0, red, -10⟩).left
  right p := (rows.getD p ⟨0, 0, 0, red, -10⟩).right
  color p := (rows.getD p ⟨0, 0, 0, red, -10⟩).color
  key p := (rows.getD p ⟨0, 0, 0, red, -10⟩).key
  data p := (rows.getD p ⟨0, 0, 0, red, -10⟩).key
  swapData p q d := d ∘ Equiv.swap p q

/-- The tree after the insertion of 6, 9, 7, 4, 3 and 5: the red sibling 4 of the black
leaf 9 has an inner child 6 with the red child 5. -/
def sample : RbtTree (Fin 7) ℤ :=
  ofRows 3 [⟨0, 0, 1, black, -10⟩, ⟨4, 6, 0, black, 6⟩, ⟨3, 0, 0, black, 9⟩, ⟨0, 4, 2, black, 7⟩,
    ⟨3, 5, 1, red, 4⟩, ⟨4, 0, 0, black, 3⟩, ⟨1, 0, 0, red, 5⟩]

/-- The shape of the sample. -/
def sampleTree : PTree (Fin 7) :=
  node (node (node leaf 5 black leaf) 4 red (node (node leaf 6 red leaf) 1 black leaf)) 3 black
    (node leaf 2 black leaf)

/-- The tree of 6, 9, 7 and 4, and beside it a node with the key 5. -/
def sampleFour : RbtTree (Fin 7) ℤ :=
  ofRows 3 [⟨0, 0, 0, black, -10⟩, ⟨3, 4, 0, black, 6⟩, ⟨3, 0, 0, black, 9⟩, ⟨0, 1, 2, black, 7⟩,
    ⟨1, 0, 0, red, 4⟩, ⟨0, 0, 0, red, 5⟩]

/-- Its shape. -/
def sampleFourTree : PTree (Fin 7) :=
  node (node (node leaf 4 red leaf) 1 black leaf) 3 black (node leaf 2 black leaf)

theorem redBlack_sample : RedBlack sample sampleTree :=
  ⟨⟨rfl, by simp only [sampleTree, Holds]; decide, by decide⟩, rfl, rfl, 2, by simp [sampleTree]⟩

theorem valid_sample : Valid sample := ⟨sampleTree, redBlack_sample, by unfold Sorted; decide⟩

theorem inTree_sample {q : Fin 7} (h : q ∈ sampleTree.ptrs) : InTree sample q :=
  ⟨sampleTree, redBlack_sample.rep, h⟩

/-- Deleting the red leaf 5 leaves a valid tree. -/
theorem deleteNode_sample_five : ∃ t' y,
    Loop.Returns (fun n => deleteNode n sample 6) (t', y) ∧ Valid t' := by
  obtain ⟨t', y, hret, hiff⟩ :=
    deleteNode_valid_iff valid_sample (inTree_sample (show 6 ∈ sampleTree.ptrs by decide))
  refine ⟨t', y, hret, hiff.mpr ?_⟩
  rintro ⟨n, y', hy, -, -, hc, -⟩
  have hy' : getSuccessor n sample 6 = some 6 := rfl
  obtain rfl : (6 : Fin 7) = y' := Option.some.inj (hy'.symm.trans hy)
  exact absurd hc (by decide)

/-- **Deleting 9 from a valid tree gives a tree that is not red-black**: the shortcut
colours 6 red above its red child 5. -/
theorem deleteNode_sample_nine : Valid sample ∧ InTree sample 2 ∧ ∃ t' y,
    Loop.Returns (fun n => deleteNode n sample 2) (t', y) ∧ ¬Valid t' := by
  have hmem : 2 ∈ sampleTree.ptrs := by decide
  refine ⟨valid_sample, inTree_sample hmem, ?_⟩
  obtain ⟨t', T', y, A, B, hret, -, hrep, -, -, -, -, -, -, -, hok⟩ :=
    deleteNode_spec redBlack_sample hmem
  refine ⟨t', y, hret, ?_⟩
  rintro ⟨T, hT, -⟩
  obtain rfl := hT.rep.unique hrep
  refine hok.mp ⟨hT.root_black, hT.balanced⟩ ⟨0, 2, rfl, rfl, rfl, rfl, ?_⟩
  exact ShortcutBreaks.stop (by decide) rfl (Or.inl rfl)

/-! ### Search -/

/-- **A search** ends at the node with the key, or at the sentinel when no node has it. -/
theorem search_spec {t : RbtTree P V} {T : PTree P} (hrep : Represents t T) (hs : Sorted t T)
    (k : ℤ) : ∃ q, Loop.Returns (fun n => search n t k) q ∧
      ((q ∈ T.ptrs ∧ t.key q = k) ∨ (q = t.nil ∧ ∀ p ∈ T.ptrs, t.key p ≠ k)) := by
  let Inv : ℕ → P → Prop := fun n x => ∃ ctx S, T = plug ctx S ∧ n = S.ptrs.length ∧
    x = S.ptr t.nil ∧ Between t k ctx
  let Post : P → Prop := fun q => (q ∈ T.ptrs ∧ t.key q = k) ∨
    (q = t.nil ∧ ∀ p ∈ T.ptrs, t.key p ≠ k)
  have hround : ∀ n x, Inv n x → (∃ m x', searchStep t k x = .inl x' ∧ m < n ∧ Inv m x') ∨
      ∃ q, searchStep t k x = .inr q ∧ Post q := by
    rintro n x ⟨ctx, S, rfl, rfl, rfl, hb⟩
    have hfoc : Focus t ctx S := focus_iff.mpr hrep
    cases S with
    | leaf =>
      refine Or.inr ⟨t.nil, ?_, Or.inr ⟨rfl, fun p hp => hb.notMem hp⟩⟩
      simp [searchStep]
    | node l q c r =>
      obtain ⟨hq, -, hlq, hrq, -⟩ := hfoc.tree
      rcases lt_trichotomy k (t.key q) with hk | hk | hk
      · refine Or.inl ⟨l.ptrs.length, t.left q, ?_, by simp, .left q c r :: ctx, l, rfl, rfl, hlq,
          hb.left hs hk⟩
        simp [searchStep, hq, hk]
      · refine Or.inr ⟨q, ?_, Or.inl ⟨by simp [plug_ptrs], hk.symm⟩⟩
        simp [searchStep, hq, hk]
      · refine Or.inl ⟨r.ptrs.length, t.right q, ?_, by simp; omega, .right l q c :: ctx, r, rfl,
          rfl, hrq, hb.right hs hk⟩
        simp [searchStep, hq, hk, not_lt_of_gt hk]
  exact Loop.returns_of_variant hround T.ptrs.length t.root
    ⟨[], T, rfl, rfl, hrep.root, between_nil⟩

/-! ### Operations -/

/-- The operations a caller performs. An insertion brings a node of its own, with the key
and the payload already in it. -/
inductive Op (P V : Type*)
  /-- `RBT_insertNode` of the node `target`. -/
  | insert (target : P) (k : ℤ) (v : V) : Op P V
  /-- `RBT_deleteNodeByKey`. -/
  | delete (k : ℤ) : Op P V

/-- The caller fills its node. -/
def store (t : RbtTree P V) (target : P) (k : ℤ) (v : V) : RbtTree P V :=
  { t.setKey target k with data := Function.update t.data target v }

/-- The tree after an operation. -/
def runOp (fuel : ℕ) (t : RbtTree P V) : Op P V → Option (RbtTree P V)
  | .insert target k v => (insertNode fuel (store t target k v) target).map Prod.fst
  | .delete k => (deleteNodeByKey fuel t k).map Prod.fst

/-- **The node of an insertion is fresh**: it is not the sentinel and not in the tree. -/
def Fresh (t : RbtTree P V) : Op P V → Prop
  | .insert target _ _ => target ≠ t.nil ∧ ¬InTree t target
  | .delete _ => True

/-- An operation of the caller, which returns. -/
def OpStep (t : RbtTree P V) (op : Op P V) (t' : RbtTree P V) : Prop :=
  Fresh t op ∧ Loop.Returns (fun n => runOp n t op) t'

/-- **The operation does not break the tree.** Only a deletion can. -/
def Mends (t : RbtTree P V) : Op P V → Prop
  | .insert _ _ _ => True
  | .delete k => ∀ n q, search n t k = some q → q ≠ t.nil → ¬DeleteBreaks t q

/-! ### The abstract map -/

/-- What an operation does to the map: a duplicate insertion changes nothing. -/
def mapOp (M : ℤ → Option V) : Op P V → ℤ → Option V
  | .insert _ k v => if M k = none then Function.update M k (some v) else M
  | .delete k => Function.update M k none

/-- The map a sequence of operations builds. -/
def mapOps (ops : List (Op P V)) : ℤ → Option V := ops.foldl mapOp fun _ => none

/-- The contents of a tree in memory, in order. -/
def entries (t : RbtTree P V) (T : PTree P) : List (ℤ × V) :=
  T.ptrs.map fun q => (t.key q, t.data q)

/-- **A red-black tree in memory is a map.** -/
structure Models (t : RbtTree P V) (M : ℤ → Option V) : Prop where
  exchanges : Exchanges t
  tree : ∃ T, RedBlack t T ∧ Sorted t T ∧ ∀ k v, M k = some v ↔ (k, v) ∈ entries t T

/-- The empty tree is the empty map, whatever the sentinel holds. -/
theorem models_initTree {mem : RbtTree P V} (hx : Exchanges mem) (nil : P) :
    Models (initTree mem nil) fun _ => none := by
  refine ⟨hx, leaf, ⟨⟨rfl, trivial, List.nodup_nil⟩, Function.update_self _ _ _, rfl, 0,
    balanced_leaf.mpr rfl⟩, List.Pairwise.nil, ?_⟩
  simp [entries]

section Insert

variable {t : RbtTree P V} {T : PTree P} {M : ℤ → Option V} {target : P} {k : ℤ} {v : V}

theorem store_key_of_ne {q : P} (h : q ≠ target) : (store t target k v).key q = t.key q :=
  Function.update_of_ne h _ _

theorem store_key_self : (store t target k v).key target = k := Function.update_self _ _ _

theorem store_data_of_ne {q : P} (h : q ≠ target) : (store t target k v).data q = t.data q :=
  Function.update_of_ne h _ _

theorem store_data_self : (store t target k v).data target = v := Function.update_self _ _ _

/-- Filling a node that is not in the tree is not seen by the tree. -/
theorem RedBlack.store (h : RedBlack t T) : RedBlack (store t target k v) T :=
  ⟨focus_nil.mp ((focus_nil.mpr h.rep).congr rfl rfl fun _ _ => ⟨rfl, rfl, rfl, rfl⟩),
    h.nil_black, h.root_black, h.balanced⟩

theorem Sorted.store (h : Sorted t T) (hfresh : target ∉ T.ptrs) :
    Sorted (store t target k v) T := by
  refine List.Pairwise.imp_of_mem (fun {p q} hp hq hlt => ?_) h
  rw [store_key_of_ne (ne_of_mem_of_not_mem hp hfresh),
    store_key_of_ne (ne_of_mem_of_not_mem hq hfresh)]
  exact hlt

theorem entries_store (hfresh : target ∉ T.ptrs) :
    entries (store t target k v) T = entries t T := by
  refine List.map_congr_left fun q hq => ?_
  have hne : q ≠ target := ne_of_mem_of_not_mem hq hfresh
  rw [store_key_of_ne hne, store_data_of_ne hne]

/-- **An insertion adds its key to the map**, unless the key is there already. -/
theorem Models.insert (h : Models t M) (hf : Fresh t (.insert target k v)) :
    ∃ t', Loop.Returns (fun n => runOp n t (.insert target k v)) t' ∧
      Models t' (mapOp M (.insert target k v : Op P V)) := by
  obtain ⟨hx, T, hT, hs, hM⟩ := h
  obtain ⟨hnil, hin⟩ := hf
  have hfresh : target ∉ T.ptrs := fun hm => hin ⟨T, hT.rep, hm⟩
  have hT₁ : RedBlack (store t target k v) T := hT.store
  have hs₁ : Sorted (store t target k v) T := hs.store hfresh
  rcases insertNode_spec hT₁ hs₁ (show target ≠ (store t target k v).nil from hnil) hfresh with
    ⟨q, hq, hk, hret⟩ | ⟨hnew, t', T', A, B, hret, hT', hsame, hAB, hptrs, hA, hB⟩
  -- the key is there: nothing but the fresh node has been written
  · refine ⟨store t target k v, hret.map Prod.fst, hx, T, hT₁, hs₁, ?_⟩
    rw [store_key_self, store_key_of_ne (ne_of_mem_of_not_mem hq hfresh)] at hk
    have hMk : M k = some (t.data q) := (hM k _).mpr (List.mem_map.mpr ⟨q, hq, by rw [hk]⟩)
    rw [mapOp, if_neg (by simp [hMk]), entries_store hfresh]
    exact hM
  · refine ⟨t', hret.map Prod.fst, ?_, T', hT', sorted_insert hs₁ hsame hAB hptrs hA hB, ?_⟩
    · intro p q d
      rw [hsame.swapData]
      exact hx p q d
    -- the key is new, and so no node of the tree has it
    · have hMk : M k = none := by
        rw [Option.eq_none_iff_forall_ne_some]
        intro w hw
        obtain ⟨q, hq, he⟩ := List.mem_map.mp ((hM k w).mp hw)
        refine hnew q hq ?_
        rw [store_key_self, store_key_of_ne (ne_of_mem_of_not_mem hq hfresh)]
        exact congrArg Prod.fst he
      have hent : ∀ x, x ∈ entries t' T' ↔ x = (k, v) ∨ x ∈ entries t T := by
        intro x
        have he : entries t' T' = T'.ptrs.map fun q => ((store t target k v).key q,
            (store t target k v).data q) := by
          rw [entries, hsame.key, hsame.data]
        rw [he, ← entries_store (k := k) (v := v) hfresh, entries, hptrs, hAB]
        simp only [List.map_append, List.map_cons, List.mem_append, List.mem_cons, store_key_self,
          store_data_self]
        tauto
      intro k' v'
      rw [mapOp, if_pos hMk, hent, ← hM, Prod.mk.injEq]
      by_cases hk' : k' = k
      · subst hk'
        simp [hMk, eq_comm]
      · simp [hk']

end Insert

section Delete

variable {t : RbtTree P V} {M : ℤ → Option V} {k : ℤ}

/-- **A deletion removes its key from the map.** It returns in any case, and leaves a
red-black tree when it does not break it. -/
theorem Models.delete (h : Models t M) :
    ∃ t', Loop.Returns (fun n => runOp n t (.delete k)) t' ∧
      (Mends t (.delete k : Op P V) → Models t' (mapOp M (.delete k : Op P V))) := by
  obtain ⟨hx, T, hT, hs, hM⟩ := h
  obtain ⟨q, hret, ⟨hq, hk⟩ | ⟨rfl, hnot⟩⟩ := search_spec hT.rep hs k
  · obtain ⟨t', T', y, A, B, hret', -, hrep, -, hnil, hswap, hkey, hdata, hsplit, hptrs, hok⟩ :=
      deleteNode_spec hT hq
    have hdel : Loop.Returns (fun n => deleteNodeByKey n t k) (t', y) :=
      hret.bind (g := fun n q => deleteNode n t q) hret'
    refine ⟨t', hdel.map Prod.fst, fun hmends => ?_⟩
    obtain ⟨n, hn⟩ := hret.exists_fuel
    obtain ⟨hroot, hbal⟩ := hok.mpr (hmends n q hn (hT.rep.holds.ne_nil hq))
    refine ⟨fun p r d => ?_, T', ⟨hrep, hnil, hroot, hbal⟩, sorted_delete hs hkey hsplit hptrs, ?_⟩
    · rw [hswap]
      exact hx p r d
    · have hent : entries t' T' = (A ++ B).map fun p => (t.key p, t.data p) := by
        rw [← hptrs, List.map_map, entries, hkey, hdata hx]
        rfl
      -- the keys are different, so only the entry of the deleted node has the key
      have hAB : ∀ p ∈ A ++ B, t.key p ≠ k := by
        rw [Sorted, hsplit, List.pairwise_append, List.pairwise_cons] at hs
        intro p hp
        rcases List.mem_append.mp hp with hp | hp
        · exact ne_of_lt (hk ▸ hs.2.2 p hp q (by simp))
        · exact ne_of_gt (hk ▸ hs.2.1.1 p hp)
      intro k' v'
      rw [mapOp, hent]
      by_cases hk' : k' = k
      · subst hk'
        rw [Function.update_self]
        refine iff_of_false (by simp) fun hm => ?_
        obtain ⟨p, hp, he⟩ := List.mem_map.mp hm
        exact hAB p hp (congrArg Prod.fst he)
      · rw [Function.update_of_ne hk', hM, entries, hsplit]
        have hne : (k', v') ≠ (t.key q, t.data q) := fun he => hk' ((congrArg Prod.fst he).trans hk)
        simp [hne]
  -- the key is not there, and the sentinel is passed on
  · have hdel : Loop.Returns (fun n => deleteNodeByKey n t k) (t, t.nil) := by
      refine hret.bind (g := fun n q => deleteNode n t q) ((Loop.returns_pure _).congr fun n => ?_)
      rw [deleteNode, if_pos rfl]
    refine ⟨t, hdel.map Prod.fst, fun _ => ⟨hx, T, hT, hs, fun k' v' => ?_⟩⟩
    have hMk : M k = none := by
      rw [Option.eq_none_iff_forall_ne_some]
      intro w hw
      obtain ⟨p, hp, he⟩ := List.mem_map.mp ((hM k w).mp hw)
      exact hnot p hp (congrArg Prod.fst he)
    rw [← hM, mapOp, ← hMk, Function.update_eq_self]

end Delete

/-! ### Runs -/

/-- The state at the end of a run whose deletions do not break the tree is the map that
its operations build. -/
theorem run_models {mem t : RbtTree P V} (hx : Exchanges mem) {nil : P} {ops : List (Op P V)}
    (h : Runs.Run (Runs.guard Mends OpStep) (initTree mem nil) ops t) : Models t (mapOps ops) := by
  refine h.simulates (R := Models) (models_initTree hx nil) ?_
  rintro s M op s' hM ⟨hok, hf, hret⟩
  cases op with
  | insert target k v =>
    obtain ⟨t', hret', hM'⟩ := hM.insert hf
    exact hret'.unique hret ▸ hM'
  | delete k =>
    obtain ⟨t', hret', hM'⟩ := hM.delete (k := k)
    exact hret'.unique hret ▸ hM' hok

/-- What a caller sees of the map: the order, the searches and the next operation. -/
structure Serves (t : RbtTree P V) (M : ℤ → Option V) : Prop where
  /-- The in-order walk is strictly increasing. -/
  order : ∃ T, Represents t T ∧ Sorted t T
  /-- A search finds a node other than the sentinel exactly for the keys of the map, and
  the node carries the payload of the key. -/
  search : ∀ k, ∃ q, Loop.Returns (fun n => RbTree.search n t k) q ∧
    (q ≠ t.nil ↔ M k ≠ none) ∧ ∀ v, M k = some v → t.data q = v
  /-- Every operation terminates. -/
  returns : ∀ op, Fresh t op → ∃ t', OpStep t op t'

theorem Models.serves {t : RbtTree P V} {M : ℤ → Option V} (h : Models t M) : Serves t M := by
  have ⟨_, T, hT, hs, hM⟩ := h
  refine ⟨⟨T, hT.rep, hs⟩, fun k => ?_, fun op hf => ?_⟩
  · obtain ⟨q, hret, ⟨hq, hk⟩ | ⟨rfl, hnot⟩⟩ := search_spec hT.rep hs k
    · have hMk : M k = some (t.data q) := (hM k _).mpr (List.mem_map.mpr ⟨q, hq, by rw [hk]⟩)
      refine ⟨q, hret, iff_of_true (hT.rep.holds.ne_nil hq) (by simp [hMk]), fun v hv => ?_⟩
      exact Option.some.inj (hMk.symm.trans hv)
    · have hMk : M k = none := by
        rw [Option.eq_none_iff_forall_ne_some]
        intro w hw
        obtain ⟨p, hp, he⟩ := List.mem_map.mp ((hM k w).mp hw)
        exact hnot p hp (congrArg Prod.fst he)
      exact ⟨t.nil, hret, iff_of_false (by simp) (by simp [hMk]), by simp [hMk]⟩
  · cases op with
    | insert target k v =>
      obtain ⟨t', hret, -⟩ := h.insert hf
      exact ⟨t', hf, hret⟩
    | delete k =>
      obtain ⟨t', hret, -⟩ := h.delete (k := k)
      exact ⟨t', trivial, hret⟩

/-- **The tree is a finite map over whole runs**, as long as no deletion of the run meets
the climb that breaks the tree. -/
theorem run_serves {mem : RbtTree P V} (hx : Exchanges mem) {nil : P} {ops : List (Op P V)}
    {t : RbtTree P V} (h : Runs.Run (Runs.guard Mends OpStep) (initTree mem nil) ops t) :
    Serves t (mapOps ops) :=
  (run_models hx h).serves

/-! ### A run that the tree does not survive -/

theorem stable_insertNode (t : RbtTree P V) (target : P) :
    Loop.Stable fun n => insertNode n t target := by
  refine (Loop.stable_run _ _).bind fun res => ?_
  cases res with
  | inl prev => exact (Loop.stable_run _ _).map _
  | inr node => exact Loop.stable_const _

theorem stable_runOp (t : RbtTree P V) (op : Op P V) : Loop.Stable fun n => runOp n t op := by
  have hsplice : ∀ (t : RbtTree P V) (x : P), Loop.Stable fun n => spliceOut n t x := fun t x =>
    ((Loop.stable_run _ _).map _).ite (Loop.stable_const _)
  cases op with
  | insert target k v => exact (stable_insertNode _ _).map _
  | delete k =>
    refine Loop.Stable.map ((Loop.stable_run _ _).bind fun target => ?_) _
    exact (Loop.stable_const _).ite
      (((stable_getSuccessor t target).bind fun _ => hsplice _ _).ite (hsplice _ _))

omit [DecidableEq P] in
/-- A node of the tree is pointed to. -/
theorem InTree.pointed {t : RbtTree P V} {p : P} (h : InTree t p) :
    t.root = p ∨ ∃ q, t.left q = p ∨ t.right q = p := by
  obtain ⟨T, hrep, hmem⟩ := h
  obtain ⟨ctx, l, c, r, rfl⟩ := exists_plug_of_mem hmem
  have hctx := (focus_iff.mpr hrep : Focus t ctx (node l p c r)).outer
  rcases ctx with _ | ⟨⟨q, c', r'⟩ | ⟨l', q, c'⟩, ctx⟩
  · exact Or.inl hctx
  · exact Or.inr ⟨q, Or.inl hctx.2.2.1⟩
  · exact Or.inr ⟨q, Or.inr hctx.2.2.2.1⟩

/-- An operation whose node is seen to be fresh because nothing points to it. -/
def checkedOp {m : ℕ} (fuel : ℕ) (t : RbtTree (Fin m) V) : Op (Fin m) V →
    Option (RbtTree (Fin m) V)
  | .insert target k v =>
    if target ≠ t.nil ∧ t.root ≠ target ∧ ∀ q, t.left q ≠ target ∧ t.right q ≠ target then
      runOp fuel t (.insert target k v)
    else none
  | .delete k => runOp fuel t (.delete k)

theorem opStep_of_checked {m : ℕ} {fuel : ℕ} {t t' : RbtTree (Fin m) V} {op : Op (Fin m) V}
    (h : checkedOp fuel t op = some t') : OpStep t op t' := by
  cases op with
  | insert target k v =>
    simp only [checkedOp] at h
    split_ifs at h with hf
    refine ⟨⟨hf.1, fun hin => ?_⟩, (stable_runOp t _).returns h⟩
    rcases hin.pointed with hroot | ⟨q, hl | hr⟩
    · exact hf.2.1 hroot
    · exact (hf.2.2 q).1 hl
    · exact (hf.2.2 q).2 hr
  | delete k => exact ⟨trivial, (stable_runOp t _).returns h⟩

theorem run_of_checked {m : ℕ} {fuel : ℕ} {t : RbtTree (Fin m) V}
    {ok : RbtTree (Fin m) V → Op (Fin m) V → Prop} (ops : List (Op (Fin m) V))
    (hok : ∀ op ∈ ops, ∀ t, ok t op) :
    ∀ {t' : RbtTree (Fin m) V}, ops.foldlM (checkedOp fuel) t = some t' →
      Runs.Run (Runs.guard ok OpStep) t ops t' := by
  induction ops using List.reverseRecOn with
  | nil =>
    intro t' h
    obtain rfl : t = t' := Option.some.inj h
    exact .nil
  | append_singleton ops op ih =>
    intro t' h
    rw [List.foldlM_append] at h
    obtain ⟨s, hs, hop⟩ := Option.bind_eq_some_iff.mp h
    exact (ih (fun op hop => hok op (List.mem_append_left _ hop)) hs).snoc
      ⟨hok op (by simp) s, opStep_of_checked (by simpa using hop)⟩

/-- Build `sample`, delete 9, which breaks it, and go on. -/
def sampleOps : List (Op (Fin 7) ℤ) :=
  [.insert 1 6 6, .insert 2 9 9, .insert 3 7 7, .insert 4 4 4, .insert 5 3 3, .insert 6 5 5,
    .delete 9, .delete 6, .delete 5]

/-- The first five insertions of them. -/
def sampleGrowth : List (Op (Fin 7) ℤ) :=
  [.insert 1 6 6, .insert 2 9 9, .insert 3 7 7, .insert 4 4 4, .insert 5 3 3]

/-- Five keys, and the deletion of the black leaf 9, whose sibling 4 has red children: the repair
rotates. -/
theorem run_serves_sampleGrowth : ∃ t, Runs.Run (Runs.guard Mends OpStep)
    (initTree (ofRows 0 []) 0) (sampleGrowth ++ [.delete 9]) t ∧ t.root = 4 ∧
      Serves t (mapOps (sampleGrowth ++ [.delete 9])) := by
  have hsome : ((sampleGrowth.foldlM (checkedOp 8) (initTree (ofRows 0 []) 0)).bind fun t =>
      (checkedOp 8 t (.delete 9)).map fun t' => (search 8 t 9, getSuccessor 8 t 2, t'.root,
        t.color (sibling t 2), t.color (t.left (sibling t 2)))) =
      some (some 2, some 2, 4, black, red) := by
    decide +kernel
  obtain ⟨t, hgrow, hsome⟩ := Option.bind_eq_some_iff.mp hsome
  obtain ⟨t', hdel, he⟩ := Option.map_eq_some_iff.mp hsome
  simp only [Prod.mk.injEq] at he
  obtain ⟨hsearch, hsucc, hroot, hblack, hred⟩ := he
  have hmends : Mends t (.delete 9 : Op (Fin 7) ℤ) := by
    rintro n q hq - ⟨n', y, hy, -, -, -, hbr⟩
    obtain rfl := ((Loop.stable_run _ _).returns hsearch).unique ((Loop.stable_run _ _).returns hq)
    obtain rfl := ((stable_getSuccessor t 2).returns hsucc).unique
      ((stable_getSuccessor t 2).returns hy)
    rcases (shortcutBreaks_def.mp hbr).2 with ⟨hc, -⟩ | ⟨-, hc, -⟩
    · exact absurd (hc.symm.trans hblack) (by decide)
    · exact absurd (hc.symm.trans hred) (by decide)
  have hinserts : ∀ op ∈ sampleGrowth, ∀ t : RbtTree (Fin 7) ℤ, Mends t op := by
    intro op hop t
    simp only [sampleGrowth, List.mem_cons, List.not_mem_nil, or_false] at hop
    rcases hop with rfl | rfl | rfl | rfl | rfl <;> trivial
  have hrun := (run_of_checked sampleGrowth hinserts hgrow).snoc ⟨hmends, opStep_of_checked hdel⟩
  exact ⟨t', hrun, hroot, run_serves (fun _ _ _ => rfl) hrun⟩

/-- **After the last deletion the tree finds a key that was deleted**: the rotation that
the broken tree calls for brings the node of 6 back. -/
theorem not_serves_sampleOps : ∃ t, Runs.Run OpStep (initTree (ofRows 0 []) 0) sampleOps t ∧
    ¬Serves t (mapOps sampleOps) := by
  have hfind : ((sampleOps.foldlM (checkedOp 6) (initTree (ofRows 0 []) 0)).bind
      fun t => (search 6 t 6).map fun q => (q, t.nil)) = some (1, 0) := by decide +kernel
  obtain ⟨t, ht, hq⟩ := Option.bind_eq_some_iff.mp hfind
  obtain ⟨q, hq, he⟩ := Option.map_eq_some_iff.mp hq
  obtain ⟨rfl, hnil⟩ := Prod.mk.inj he
  have hrun := @run_of_checked _ _ _ _ (fun _ _ => True) _ (fun _ _ _ => trivial) _ ht
  refine ⟨t, hrun.unguard, fun hserves => ?_⟩
  obtain ⟨q', hret, hiff, -⟩ := hserves.search 6
  obtain rfl := ((Loop.stable_run _ _).returns hq).unique hret
  refine hiff.mp ?_ (by decide +kernel)
  rw [hnil]
  decide

end RbTree

end BackendStudy
