import BackendStudy.LinkedList.Heap
import BackendStudy.Lib.Race

/-!
# Whether a list has a loop

`isListLooped` sends a slow and a fast pointer along the list. In a heap neither of them comes to
an address without a node, and where the last but one node is reached at the wrong moment the
fast pointer takes one step instead of two, to null. So the rounds are those of a race along the
links (`BackendStudy.LinkedList.isListLoopedStep_eq`), and the function returns whether the links
go on for ever (`BackendStudy.LinkedList.isListLooped_exact`).
-/

namespace BackendStudy

namespace LinkedList

open Chain Race

variable {P : Type} [DecidableEq P] {g : Heap P} {slow fast : Option P}

/-- A round of the loop does what a round of the race does, and follows pointers to nodes only. -/
theorem isListLoopedStep_eq (hslow : g.Pointer slow) (hfast : g.Pointer fast) :
    isListLoopedStep g.toMemory (slow, fast) = .ok (raceStep g.links (slow, fast)) := by
  rw [isListLoopedStep, raceStep]
  by_cases hnull : slow ≠ none ∧ fast ≠ none
  · rw [if_pos hnull, if_pos hnull]
    by_cases hmeet : slow = fast
    · rw [if_pos hmeet, if_pos hmeet]
    · rw [if_neg hmeet, if_neg hmeet]
      obtain ⟨a, rfl⟩ := Option.ne_none_iff_exists'.mp hnull.1
      obtain ⟨b, rfl⟩ := Option.ne_none_iff_exists'.mp hnull.2
      obtain ⟨n, -, hn, hslow'⟩ := hslow.deref
      obtain ⟨n', -, hn', hfast'⟩ := hfast.deref
      simp only [hn, hn', Slots.ok_bind, hslow', hfast', Option.bind_some]
      -- the fast pointer takes its second step if there is a node for it
      cases hb : g.links b with
      | none => rfl
      | some c =>
        obtain ⟨n'', -, hn'', hnext⟩ := (hb ▸ g.pointer_links b : g.Pointer (some c)).deref
        simp only [ne_eq, reduceCtorEq, not_false_eq_true, if_true, hn'', Slots.ok_bind, hnext,
          Option.bind_some]
        rfl
  · rw [if_neg hnull, if_neg hnull]

/-- The rounds keep the pointers pointers. -/
theorem pointer_raceStep {s s' : Option P × Option P} (hs : g.Pointer s.1 ∧ g.Pointer s.2)
    (h : raceStep g.links s = .inl s') : g.Pointer s'.1 ∧ g.Pointer s'.2 := by
  obtain ⟨slow, fast⟩ := s
  by_cases hnull : slow ≠ none ∧ fast ≠ none
  · by_cases hmeet : slow = fast
    · rw [raceStep, if_pos hnull, if_pos hmeet] at h
      cases h
    · rw [raceStep, if_pos hnull, if_neg hmeet] at h
      obtain rfl := Sum.inl.inj h
      exact ⟨Heap.pointer_follow hs.1 1, Heap.pointer_follow hs.2 2⟩
  · rw [raceStep, if_neg hnull] at h
    cases h

/-- **`isListLooped` is exact**: from any pointer into a heap it returns, without following a
pointer that is null or leads to no node, and what it returns is whether the links never come to
null. -/
theorem isListLooped_exact (g : Heap P) (h : Option P) (hp : g.Pointer h) :
    ∃ b, Loop.Returns (fun n => isListLooped g.toMemory n h) (.ok b) ∧
      (b = true ↔ ∀ n, follow g.links n h ≠ none) := by
  obtain ⟨nodes, hclosed, hmem⟩ := g.exists_nodes
  obtain ⟨b, hrace, hb⟩ := returns_race hclosed (hmem h hp)
  cases h with
  | none =>
    refine ⟨false, Loop.returns_pure _, iff_of_false (by simp) fun hnever => hnever 0 rfl⟩
  | some a =>
    obtain ⟨n, -, hn, hnext⟩ := hp.deref
    refine ⟨b, (hrace.map Except.ok).congr fun k => ?_, hb⟩
    rw [isListLooped, if_neg (by simp), hn]
    change _ = Loop.run (Loop.checked (isListLoopedStep g.toMemory)) k (some a, n.next)
    rw [hnext]
    have hstart : g.Pointer (some a) ∧ g.Pointer (g.links a) := ⟨hp, g.pointer_links a⟩
    exact (@Loop.run_checked _ _ _ _ (isListLoopedStep g.toMemory)
      (fun s => g.Pointer s.1 ∧ g.Pointer s.2) (fun _ _ => pointer_raceStep)
      (fun _ hs => isListLoopedStep_eq hs.1 hs.2) k (some a, g.links a) hstart).symm

/-- The list that `LOOP_LIST` builds. -/
theorem isListLooped_exact_sample : ∃ (g : Heap ℕ) (l : MyLink ℕ),
    myLink id Heap.empty.toMemory .loopList = .ok (g.toMemory, l) ∧
      ∃ b, Loop.Returns (fun n => isListLooped g.toMemory n l.head) (.ok b) ∧
        (b = true ↔ ∀ n, follow g.links n l.head ≠ none) := by
  obtain ⟨g, l, hbuilt, hhead, -⟩ := exists_myLink .loopList
  exact ⟨g, l, hbuilt, isListLooped_exact g l.head hhead⟩

end LinkedList

end BackendStudy
