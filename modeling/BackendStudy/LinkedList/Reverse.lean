import BackendStudy.LinkedList.Heap
import BackendStudy.Lib.Reversal

/-!
# Turning a list round

`reverseList` writes to the `next` of the nodes it goes along and to nothing else, so its memory
is all the while the one it has started with, with other links
(`BackendStudy.LinkedList.Memory.relink`), and its rounds turn these links round
(`BackendStudy.LinkedList.reverseListStep_relink`). What the loop does to links is known: it turns
a list round, on a list with a loop it leaves the tail and turns the loop round, and run a second
time it gives the first links back (`BackendStudy.LinkedList.reverseList_involutive`).
-/

namespace BackendStudy

namespace LinkedList

open Chain Reversal Slots Walk

variable {P : Type}

namespace Memory

/-- A memory with other links. -/
def relink (m : Memory P) (next : P → Option P) : Memory P :=
  { m with node := fun p => (m.node p).map fun n => { n with next := next p } }

variable {m : Memory P} {next : P → Option P} {p : P}

theorem relink_node_eq :
    (m.relink next).node p = (m.node p).map fun n => { n with next := next p } := rfl

theorem relink_node {n : LinkNode P} (hn : m.node p = some n) :
    (m.relink next).node p = some { n with next := next p } := by
  rw [relink_node_eq, hn, Option.map_some]

/-- Other links leave the values. -/
theorem relink_val : ((m.relink next).node p).map LinkNode.val = (m.node p).map LinkNode.val := by
  rw [relink_node_eq, Option.map_map]
  rfl

/-- A node whose link is the one it has. -/
theorem relink_node_of_eq (h : next p = m.links p) : (m.relink next).node p = m.node p := by
  cases hn : m.node p with
  | none => rw [relink_node_eq, hn, Option.map_none]
  | some n => rw [relink_node hn, h, links_of_node hn]

/-- The links that a memory has. -/
theorem relink_links : m.relink m.links = m :=
  Memory.ext (funext fun _ => relink_node_of_eq rfl) rfl

end Memory

/-- Links for a heap: they are pointers, and there are none at other addresses. -/
structure Links (g : Heap P) (next : P → Option P) : Prop where
  pointer : ∀ p, g.Pointer (next p)
  none : ∀ p, g.node p = none → next p = none

namespace Links

variable {g : Heap P} {next : P → Option P}

/-- A heap with such links has these links. -/
theorem links_relink (h : Links g next) : (g.relink next).links = next := by
  funext p
  cases hn : g.node p with
  | none => rw [h.none p hn, Memory.links, Memory.relink_node_eq, hn, Option.map_none,
      Option.bind_none]
  | some n => rw [Memory.links_of_node (Memory.relink_node hn)]

/-- The links of a heap. -/
theorem links (g : Heap P) : Links g g.links :=
  ⟨g.pointer_links, fun p hn => by rw [Memory.links, hn, Option.bind_none]⟩

theorem update [DecidableEq P] {p : P} {q : Option P} (h : Links g next) (hp : g.Pointer (some p))
    (hq : g.Pointer q) : Links g (Function.update next p q) where
  pointer := by
    intro r
    by_cases hrp : r = p
    · rw [hrp, Function.update_self]
      exact hq
    · rw [Function.update_of_ne hrp]
      exact h.pointer r
  none := by
    intro r hr
    have hrp : r ≠ p := by
      rintro rfl
      simpa [hr] using hp r rfl
    rw [Function.update_of_ne hrp]
    exact h.none r hr

end Links

variable [DecidableEq P] {g : Heap P} {next : P → Option P} {prev current : Option P}

/-- The states of the loop, as the links and the two pointers. -/
def States (g : Heap P) (s : (P → Option P) × Option P × Option P) : Prop :=
  Links g s.1 ∧ g.Pointer s.2.1 ∧ g.Pointer s.2.2

/-- A state of the loop in the heap, and its links and pointers. -/
def Rounds (g : Heap P) (s : Memory P × Option P × Option P)
    (t : (P → Option P) × Option P × Option P) : Prop :=
  States g t ∧ s = (g.relink t.1, t.2)

/-- What the loop returns in the heap, and the links and the pointer. -/
def Results (g : Heap P) (r : Except Fault (Memory P × Option P)) (t : (P → Option P) × Option P) :
    Prop :=
  (Links g t.1 ∧ g.Pointer t.2) ∧ r = .ok (g.relink t.1, t.2)

/-- **A round of `reverseList`** is a round of turning the links round. -/
theorem reverseListStep_relink {s : Memory P × Option P × Option P}
    {t : (P → Option P) × Option P × Option P} (hst : Rounds g s t) :
    Sum.LiftRel (Rounds g) (Results g) (Loop.checked reverseListStep s) (reverseStep t) := by
  obtain ⟨next, prev, current⟩ := t
  obtain ⟨⟨hlinks, hprev, hcurrent⟩, rfl⟩ := hst
  cases current with
  | none => exact .inr ⟨⟨hlinks, hprev⟩, rfl⟩
  | some a =>
    obtain ⟨n, hn, -, -⟩ := hcurrent.deref
    have hderef : (g.relink next).deref (some a) = .ok { n with next := next a } :=
      Memory.deref_of_node (Memory.relink_node hn)
    have hset : (g.relink next).setNext a prev = .ok (g.relink (Function.update next a prev)) := by
      rw [Memory.setNext, hderef, ok_bind]
      refine congrArg Except.ok (Memory.ext (funext fun q => ?_) rfl)
      by_cases hqa : q = a
      · subst hqa
        rw [Memory.relink_node hn, Function.update_self]
        exact Function.update_self _ _ _
      · rw [Memory.relink_node_eq, Function.update_of_ne hqa]
        exact Function.update_of_ne hqa _ _
    have hround : reverseListStep (g.relink next, prev, some a) =
        .ok (.inl (g.relink (Function.update next a prev), some a, next a)) := by
      simp only [reverseListStep, hderef, hset, ok_bind]
      rfl
    rw [Loop.checked, hround]
    exact .inl ⟨⟨hlinks.update hcurrent hprev, hcurrent, hlinks.pointer a⟩, rfl⟩

/-- **`reverseList` turns the links round**, and comes to links of the heap. -/
theorem returns_reverseList {h r : Option P} {next' : P → Option P} (hlinks : Links g next)
    (hp : g.Pointer h) (hret : Loop.Returns (fun n => reverse next n h) (next', r)) :
    Loop.Returns (fun n => reverseList (g.relink next) n h) (.ok (g.relink next', r)) ∧
      Links g next' ∧ g.Pointer r := by
  have hstart : Rounds g (g.relink next, none, h) (next, none, h) :=
    ⟨⟨hlinks, Memory.pointer_none, hp⟩, rfl⟩
  have heach : ∀ n, reverse next n h = some (next', r) → ∃ r', Results g r' (next', r) ∧
      reverseList (g.relink next) n h = some r' := by
    intro n hn
    have hrel := Loop.run_simulates (fun _ _ hst => reverseListStep_relink hst) n hstart
    rw [show Loop.run reverseStep n (next, none, h) = some (next', r) from hn] at hrel
    generalize hrun : Loop.run (Loop.checked reverseListStep) n (g.relink next, none, h) = x at hrel
    cases hrel with
    | some hr => exact ⟨_, hr, hrun⟩
  obtain ⟨n, hn⟩ := hret.exists_fuel
  obtain ⟨-, ⟨hresult, -⟩, -⟩ := heach n hn
  refine ⟨hret.mono fun n hn => ?_, hresult⟩
  obtain ⟨_, ⟨-, rfl⟩, hrun⟩ := heach n hn
  exact hrun

/-- **`reverseList` is an involution** on every shape. From any pointer into a heap it returns. On
a list it returns the last node, from where the same nodes come in reverse order; on a list with a
loop it returns the pointer it has been called with, the links of the tail stay, and those of the
loop are turned round. The values stay, and so do the nodes that the pointer does not lead to. A
second run, on what the first one returns, gives back the memory and the pointer. -/
theorem reverseList_involutive (g : Heap P) (h : Option P) (hp : g.Pointer h) :
    ∃ m r, Loop.Returns (fun n => reverseList g.toMemory n h) (.ok (m, r)) ∧
      ((∃ l, Path g.links h l none) ∨ ∃ A c C, Lasso g.links h A c C) ∧
      (∀ l, Path g.links h l none → r = l.getLast? ∧ Path m.links r l.reverse none) ∧
      (∀ A c C, Lasso g.links h A c C → r = h ∧ (∀ p ∈ A, m.node p = g.node p) ∧
        Lasso m.links h A c C.reverse) ∧
      (∀ p, (m.node p).map LinkNode.val = (g.node p).map LinkNode.val) ∧
      (∀ p, ¬Reaches g.links h p → m.node p = g.node p) ∧
      m.deleted = g.deleted ∧
      Loop.Returns (fun n => reverseList m n r) (.ok (g.toMemory, h)) := by
  have hshape := Heap.list_or_lasso hp
  obtain ⟨next', r, hret, hout, hback⟩ := returns_reverse_twice hshape
  obtain ⟨hfirst, hlinks, hr⟩ := returns_reverseList (.links g) hp hret
  obtain ⟨hsecond, -, -⟩ := returns_reverseList hlinks hr hback
  rw [Memory.relink_links] at hfirst hsecond
  refine ⟨g.relink next', r, hfirst, hshape, fun l hl => ?_, fun A c C hl => ?_,
    fun p => Memory.relink_val, fun p hp => Memory.relink_node_of_eq (hout p hp), rfl, hsecond⟩
  · obtain ⟨next'', r', hret', hpath, -⟩ := returns_reverse_path hl
    obtain ⟨rfl, rfl⟩ := Prod.mk.inj (hret.unique hret')
    rw [hlinks.links_relink]
    exact ⟨by rw [hpath.eq_head?, List.head?_reverse], hpath⟩
  · obtain ⟨next'', hret', hlasso, hkeep⟩ := returns_reverse_lasso hl
    obtain ⟨rfl, rfl⟩ := Prod.mk.inj (hret.unique hret')
    rw [hlinks.links_relink]
    refine ⟨rfl, fun p hpA => Memory.relink_node_of_eq (hkeep p fun hpC => ?_), hlasso⟩
    exact (List.nodup_append.mp hl.2.2).2.2 p hpA p hpC rfl

/-- The list that `LOOP_LIST` builds. -/
theorem reverseList_involutive_sample : ∃ (g : Heap ℕ) (l : MyLink ℕ),
    myLink id Heap.empty.toMemory .loopList = .ok (g.toMemory, l) ∧
      ∃ m r, Loop.Returns (fun n => reverseList g.toMemory n l.head) (.ok (m, r)) ∧
        Loop.Returns (fun n => reverseList m n r) (.ok (g.toMemory, l.head)) := by
  obtain ⟨g, l, hbuilt, hhead, -⟩ := exists_myLink .loopList
  obtain ⟨m, r, hret, -, -, -, -, -, -, hback⟩ := reverseList_involutive g l.head hhead
  exact ⟨g, l, hbuilt, m, r, hret, hback⟩

end LinkedList

end BackendStudy
