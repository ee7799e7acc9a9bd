import BackendStudy.Lib.Walk
import Mathlib.Data.List.Nodup
import Mathlib.Logic.Function.Basic

/-!
# Turning links round

The loop that turns a chain of links round goes along it and sets the link of each node to the
node it has come from (`BackendStudy.Reversal.reverseStep`). One pass along nodes that differ
gives links back along them to whatever it has come from, and leaves the other links
(`BackendStudy.Reversal.exists_pass`).

A chain that ends is one pass. Where a tail leads into a loop, a first pass along the tail and the
loop comes back to the node where they meet, whose link now leads back into the tail; a second
pass goes back along the tail, which gives it the links it had, and ends. So the tail stays and
the loop is turned (`BackendStudy.Reversal.returns_reverse_lasso`). In both cases the loop run
twice gives the first links back (`BackendStudy.Reversal.returns_reverse_twice`).
-/

namespace BackendStudy

namespace Reversal

open Chain Walk

variable {α : Type*} [DecidableEq α]

/-- One round of turning links round: the state is the links, the node the round has come from and
the link it follows. -/
def reverseStep : (α → Option α) × Option α × Option α →
    ((α → Option α) × Option α × Option α) ⊕ ((α → Option α) × Option α)
  | (next, prev, none) => .inr (next, prev)
  | (next, prev, some a) => .inl (Function.update next a prev, some a, next a)

/-- The loop from a link. -/
def reverse (next : α → Option α) (fuel : ℕ) (p : Option α) :
    Option ((α → Option α) × Option α) :=
  Loop.run reverseStep fuel (next, none, p)

section

variable {next next' : α → Option α} {prev p q r : Option α} {l A C : List α} {c : α}

/-- **A pass** along the nodes of a path, none of which it meets twice: the links lead back along
them to where the pass has come from, and those of the other nodes stay. -/
theorem exists_pass (prev : Option α) (h : Path next p l q) (hnodup : l.Nodup) :
    ∃ next' last, Path next' last l.reverse prev ∧ (∀ a, a ∉ l → next' a = next a) ∧
      ∀ result, Loop.Returns (fun n => Loop.run reverseStep n (next', last, q)) result →
        Loop.Returns (fun n => Loop.run reverseStep n (next, prev, p)) result := by
  induction l generalizing next prev p with
  | nil =>
    obtain rfl := h
    exact ⟨next, prev, rfl, fun _ _ => rfl, fun _ hr => hr⟩
  | cons a l ih =>
    obtain ⟨rfl, hl⟩ := h
    obtain ⟨ha, hnodup⟩ := List.nodup_cons.mp hnodup
    have hkeep : ∀ b, b ≠ a → Function.update next a prev b = next b := fun b hb =>
      Function.update_of_ne hb _ _
    have hl' : Path (Function.update next a prev) (next a) l q :=
      hl.congr fun b hb => hkeep b (ne_of_mem_of_not_mem hb ha)
    obtain ⟨next', last, hback, hout, hret⟩ := ih (some a) hl' hnodup
    refine ⟨next', last, ?_, fun b hb => ?_, fun result hr => ?_⟩
    · rw [List.reverse_cons]
      refine path_append.mpr ⟨some a, hback, rfl, ?_⟩
      rw [hout a ha, Function.update_self]
      rfl
    · rw [List.mem_cons, not_or] at hb
      rw [hout b hb.2, hkeep b hb.1]
    · exact Loop.returns_run_inl rfl (hret result hr)

/-- Links that have a path in common, and that are the same at the other nodes. -/
theorem links_eq (h : Path next p l q) (h' : Path next' r l q)
    (hout : ∀ a, a ∉ l → next' a = next a) : next' = next := by
  funext a
  by_cases ha : a ∈ l
  · exact h.agree h' a ha
  · exact hout a ha

/-- **A chain that ends is turned round**, and the loop returns its last node. -/
theorem returns_reverse_path (h : Path next p l none) :
    ∃ next' r, Loop.Returns (fun n => reverse next n p) (next', r) ∧
      Path next' r l.reverse none ∧ ∀ a, a ∉ l → next' a = next a := by
  obtain ⟨next', r, hback, hout, hret⟩ := exists_pass none h h.nodup
  exact ⟨next', r, hret _ (Loop.returns_run_inr rfl), hback, hout⟩

/-- **A tail that leads into a loop**: the links of the tail stay, those of the loop are turned
round, and the loop returns the link it has started from. -/
theorem returns_reverse_lasso (h : Lasso next p A c C) :
    ∃ next', Loop.Returns (fun n => reverse next n p) (next', p) ∧
      Lasso next' p A c C.reverse ∧ ∀ a, a ∉ c :: C → next' a = next a := by
  obtain ⟨hA, hcycle, hnodup⟩ := h
  have hperm : (A ++ c :: C).reverse = C.reverse ++ c :: A.reverse := by simp
  obtain ⟨hnodupA, hnodupC, hdisj⟩ := List.nodup_append.mp hnodup
  -- the first pass, along the tail and the loop
  obtain ⟨next₁, last, hback, hout₁, hfirst⟩ :=
    exists_pass none (path_append.mpr ⟨_, hA, hcycle⟩) hnodup
  rw [hperm] at hback
  obtain ⟨m, hloop, rfl, htail⟩ := path_append.mp hback
  -- the second pass, back along the tail
  have hnodup' : (c :: A.reverse).Nodup := by
    refine List.nodup_cons.mpr ⟨fun hc => ?_, List.nodup_reverse.mpr hnodupA⟩
    exact hdisj c (List.mem_reverse.mp hc) c List.mem_cons_self rfl
  have hpath : Path next₁ (some c) (c :: A.reverse) none := ⟨rfl, htail⟩
  obtain ⟨next₂, start, hforth, hout₂, hsecond⟩ := exists_pass last hpath hnodup'
  rw [List.reverse_cons, List.reverse_reverse] at hforth
  obtain ⟨m, hA₂, rfl, hlast⟩ := path_append.mp hforth
  obtain rfl := hA.start_eq hA₂
  have hC : ∀ a ∈ C, a ∉ c :: A.reverse := by
    intro a ha hmem
    rcases List.mem_cons.mp hmem with rfl | hmem
    · exact (List.nodup_cons.mp hnodupC).1 ha
    · exact hdisj a (List.mem_reverse.mp hmem) a (List.mem_cons_of_mem _ ha) rfl
  refine ⟨next₂, hfirst _ (hsecond _ (Loop.returns_run_inr rfl)), ⟨hA₂, ⟨rfl, ?_⟩, ?_⟩, ?_⟩
  · -- the loop, which the second pass has left
    rw [hlast]
    exact hloop.congr fun a ha => hout₂ a (hC a (List.mem_reverse.mp ha))
  · have hsame : (A ++ c :: C.reverse).Perm (A ++ c :: C) :=
      ((List.reverse_perm C).cons c).append_left A
    exact hsame.nodup_iff.mpr hnodup
  · intro a ha
    rw [List.mem_cons, not_or] at ha
    by_cases haA : a ∈ A
    · exact hA.agree hA₂ a haA
    · rw [hout₂ a (by simp [ha.1, haA]), hout₁ a (by simp [ha.1, ha.2, haA])]

/-- **The loop is an involution** on a chain that ends and on a tail that leads into a loop. -/
theorem returns_reverse_twice
    (h : (∃ l, Path next p l none) ∨ ∃ A c C, Lasso next p A c C) :
    ∃ next' r, Loop.Returns (fun n => reverse next n p) (next', r) ∧
      (∀ a, ¬Reaches next p a → next' a = next a) ∧
      Loop.Returns (fun n => reverse next' n r) (next, p) := by
  rcases h with ⟨l, hl⟩ | ⟨A, c, C, h⟩
  · obtain ⟨next', r, hret, hback, hout⟩ := returns_reverse_path hl
    obtain ⟨next'', p', hret', hforth, hout'⟩ := returns_reverse_path hback
    rw [List.reverse_reverse] at hforth
    simp only [List.mem_reverse] at hout'
    obtain rfl := hl.start_eq hforth
    have hnext : next'' = next :=
      links_eq hl hforth fun a ha => (hout' a ha).trans (hout a ha)
    exact ⟨next', r, hret, fun a ha => hout a fun hmem => ha ((reaches_iff_of_ends hl).mpr hmem),
      hnext ▸ hret'⟩
  · obtain ⟨next', hret, hturned, hout⟩ := returns_reverse_lasso h
    obtain ⟨next'', hret', hback, hout'⟩ := returns_reverse_lasso hturned
    rw [List.reverse_reverse] at hback
    have hnext : next'' = next := by
      refine links_eq h.path hback.path fun a ha => ?_
      rw [List.mem_append, not_or] at ha
      rw [hout' a (by simpa using ha.2), hout a ha.2]
    exact ⟨next', p, hret, fun a ha => hout a fun hmem => ha (h.reaches_iff.mpr
      (List.mem_append_right _ hmem)), hnext ▸ hret'⟩

end

end Reversal

end BackendStudy
