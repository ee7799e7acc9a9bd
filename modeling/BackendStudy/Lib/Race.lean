import BackendStudy.Lib.Walk
import Mathlib.Order.Preorder.Finite
import Mathlib.Dynamics.PeriodicPts.Defs

/-!
# Two pointers of different speed

One pointer goes along links a node at a time, another one two nodes at a time, and starts one
node ahead. After `k` rounds they are at the iterates `k` and `2 * k + 1`, so they have met
exactly if the iterate `k` comes back to itself in `k + 1` steps. Where the iterates take
finitely many values there is such a `k` (`BackendStudy.Race.exists_meeting`): from some iterate
on they have a period, and one less than a large multiple of it will do.

So in a finite graph the race ends, with the slow pointer caught exactly if the links never come
to null (`BackendStudy.Race.returns_race`). If it is caught at a node, this node comes back for
ever; if the links never come to null, neither pointer can be at null where they meet.
-/

namespace BackendStudy

namespace Race

open Chain Walk Function

/-- **The pointers meet**: iterates that take finitely many values have one that comes back to
itself in one step more than its number. -/
theorem exists_meeting {β : Type*} {f : β → β} {x : β} {s : Set β} (hs : s.Finite)
    (h : ∀ n, f^[n] x ∈ s) : ∃ k, IsPeriodicPt f (k + 1) (f^[k] x) := by
  obtain ⟨i, j, hij, hrep⟩ := hs.exists_lt_map_eq_of_forall_mem h
  have hper : IsPeriodicPt f (j - i) (f^[i] x) := by
    rw [IsPeriodicPt, IsFixedPt, ← iterate_add_apply, Nat.sub_add_cancel hij.le]
    exact hrep.symm
  have hle : i + 1 ≤ (i + 1) * (j - i) := Nat.le_mul_of_pos_right _ (by omega)
  obtain ⟨k, hk⟩ := Nat.exists_eq_add_of_le' hle
  refine ⟨k + i, ?_⟩
  rw [iterate_add_apply, add_assoc, ← hk]
  exact (hper.const_mul (i + 1)).apply_iterate k

/-- What comes back to itself at a node is never null. -/
theorem follow_ne_none {α : Type*} {next : α → Option α} {p : Option α} {k : ℕ}
    (h : IsPeriodicPt (·.bind next) (k + 1) (follow next k p)) (hne : follow next k p ≠ none)
    (n : ℕ) : follow next n p ≠ none := by
  intro hn
  have hback : follow next (n * (k + 1) + k) p = follow next k p := by
    rw [follow_add]
    exact h.const_mul n
  have hle : n ≤ n * (k + 1) := Nat.le_mul_of_pos_right n k.succ_pos
  rw [follow_eq_none hn (by omega)] at hback
  exact hne hback.symm

variable {α : Type*} [DecidableEq α]

/-- One round of the race: the state is the slow and the fast pointer. -/
def raceStep (next : α → Option α) : Option α × Option α → (Option α × Option α) ⊕ Bool
  | (slow, fast) =>
    if slow ≠ none ∧ fast ≠ none then
      if slow = fast then .inr true else .inl (slow.bind next, (fast.bind next).bind next)
    else .inr false

/-- The race from a link: whether the fast pointer catches the slow one. -/
def race (next : α → Option α) (fuel : ℕ) (p : Option α) : Option Bool :=
  Loop.run (raceStep next) fuel (p, p.bind next)

/-- **The race in a finite graph** ends, and the slow pointer is caught exactly if the links never
come to null. -/
theorem returns_race {next : α → Option α} {nodes : List α} {p : Option α}
    (hclosed : ∀ a ∈ nodes, ∀ b, next a = some b → b ∈ nodes) (hp : ∀ a, p = some a → a ∈ nodes) :
    ∃ b, Loop.Returns (fun n => race next n p) b ∧ (b = true ↔ ∀ n, follow next n p ≠ none) := by
  have hfinite : (insert none (some '' {a | a ∈ nodes})).Finite :=
    ((List.finite_toSet nodes).image some).insert none
  have hstay : ∀ n, follow next n p ∈ insert none (some '' {a | a ∈ nodes}) := by
    intro n
    cases hn : follow next n p with
    | none => exact Or.inl rfl
    | some a => exact Or.inr ⟨a, mem_of_reaches hclosed hp ⟨n, hn⟩, rfl⟩
  obtain ⟨K, hK⟩ := exists_meeting hfinite hstay
  let Inv : ℕ → Option α × Option α → Prop := fun n s =>
    ∃ k, n + k = K ∧ s = (follow next k p, follow next (2 * k + 1) p)
  refine @Loop.returns_of_variant _ _ _ Inv _ ?_ K (p, p.bind next) ⟨0, by omega, rfl⟩
  rintro n _ ⟨k, hk, rfl⟩
  have hfast : follow next (2 * k + 1) p = follow next (k + 1) (follow next k p) := by
    rw [← follow_add]
    congr 1
    omega
  by_cases hnull : follow next k p ≠ none ∧ follow next (2 * k + 1) p ≠ none
  · by_cases hmeet : follow next k p = follow next (2 * k + 1) p
    · refine Or.inr ⟨true, by rw [raceStep, if_pos hnull, if_pos hmeet], ?_⟩
      exact iff_of_true rfl (follow_ne_none (hmeet.trans hfast).symm hnull.1)
    · have hlt : k ≠ K := by
        rintro rfl
        exact hmeet (hfast.trans hK).symm
      refine Or.inl ⟨n - 1, (follow next (k + 1) p, follow next (2 * (k + 1) + 1) p), ?_,
        by omega, k + 1, by omega, rfl⟩
      rw [raceStep, if_pos hnull, if_neg hmeet]
      simp only [← follow_succ', Nat.mul_succ]
  · refine Or.inr ⟨false, by rw [raceStep, if_neg hnull], ?_⟩
    refine iff_of_false (by simp) fun hnever => hnull ⟨hnever k, hnever (2 * k + 1)⟩

end Race

end BackendStudy
