import BackendStudy.Lib.Chain

/-!
# Chains that come together

Two chains of links that end and have a node in common have all nodes from there on in common, as
a node determines what comes after it. So each of them is a part of its own and then a common one
(`BackendStudy.Crossing.exists_cross`), and the first node of the one that is on the other is the
first common one (`BackendStudy.Crossing.Cross.find?_eq`).

Counted from their ends the common nodes are at the same places. So where the longer chain is
first followed by as many nodes as it is longer, two pointers that go along the chains side by
side are at the first common node at the same time, and at no node together before
(`BackendStudy.Crossing.returns_meet`).
-/

namespace BackendStudy

namespace Crossing

open Chain

variable {α : Type*} [DecidableEq α]

/-- **Two lists that come together**: two parts of their own and a common one. -/
structure Cross (l₁ l₂ A B T : List α) : Prop where
  left : l₁ = A ++ T
  right : l₂ = B ++ T
  left_apart : ∀ a ∈ A, a ∉ l₂
  right_apart : ∀ b ∈ B, b ∉ l₁

/-- One round of going along two chains side by side, up to a node where both are. -/
def meetStep (next : α → Option α) : Option α × Option α → (Option α × Option α) ⊕ Option α
  | (p, q) =>
    if p ≠ none ∧ q ≠ none then
      if p = q then .inr p else .inl (p.bind next, q.bind next)
    else .inr none

/-- The node where two pointers meet that go along chains side by side. -/
def meet (next : α → Option α) (fuel : ℕ) (p q : Option α) : Option (Option α) :=
  Loop.run (meetStep next) fuel (p, q)

variable {next : α → Option α} {p q : Option α} {l₁ l₂ A B T : List α}

/-- **Chains that end come together** at the first node that they have in common, if they have
one. -/
theorem exists_cross (h₁ : Path next p l₁ none) (h₂ : Path next q l₂ none) :
    ∃ A B T, Cross l₁ l₂ A B T := by
  cases hfind : l₁.find? (· ∈ l₂) with
  | none =>
    have hapart : ∀ a ∈ l₁, a ∉ l₂ := by simpa using hfind
    exact ⟨l₁, l₂, [], by simp, by simp, hapart, fun b hb₂ hb₁ => hapart b hb₁ hb₂⟩
  | some a =>
    obtain ⟨ha, A, Y, rfl, hA⟩ := List.find?_eq_some_iff_append.mp hfind
    simp only [decide_eq_true_eq] at ha
    obtain ⟨B, Z, rfl⟩ := List.append_of_mem ha
    obtain ⟨m, -, rfl, hY⟩ := path_append.mp h₁
    obtain ⟨m, -, rfl, hZ⟩ := path_append.mp h₂
    -- one node has one chain behind it
    obtain rfl := hY.unique hZ
    have hapart : ∀ b ∈ A, b ∉ B ++ a :: Y := fun b hb => by simpa using hA b hb
    refine ⟨A, B, a :: Y, rfl, rfl, hapart, fun b hb hmem => ?_⟩
    rcases List.mem_append.mp hmem with hmem | hmem
    · exact hapart b hmem (List.mem_append_left _ hb)
    · exact (List.nodup_append.mp h₂.nodup).2.2 b hb b hmem rfl

/-- The first node of the one list that is on the other. -/
theorem Cross.find?_eq (h : Cross l₁ l₂ A B T) : l₁.find? (· ∈ l₂) = T.head? := by
  have hA : A.find? (· ∈ l₂) = none := by simpa using h.left_apart
  rw [h.left, List.find?_append, hA, Option.none_or]
  cases T with
  | nil => rfl
  | cons a T =>
    refine List.find?_cons_of_pos ?_
    simp [h.right]

/-- Pointers that go side by side through parts of the same length without a common node meet at
the first node behind them. -/
theorem returns_meet_of_length_eq (hp : Path next p (A ++ T) none)
    (hq : Path next q (B ++ T) none) (hlen : A.length = B.length) (hapart : ∀ a ∈ A, a ∉ B) :
    Loop.Returns (fun n => meet next n p q) T.head? := by
  induction A generalizing B p q with
  | nil =>
    obtain rfl := List.eq_nil_of_length_eq_zero hlen.symm
    obtain rfl := hp.eq_head?
    obtain rfl := hq.eq_head?
    cases T with
    | nil => exact Loop.returns_run_inr rfl
    | cons a T => exact Loop.returns_run_inr (by simp [meetStep])
  | cons a A ih =>
    cases B with
    | nil => simp at hlen
    | cons b B =>
      obtain ⟨rfl, hp⟩ := hp
      obtain ⟨rfl, hq⟩ := hq
      have hab : a ≠ b := fun hab => hapart a List.mem_cons_self (hab ▸ List.mem_cons_self)
      have hround : meetStep next (some a, some b) = .inl (next a, next b) := by
        simp [meetStep, hab]
      refine Loop.returns_run_inl hround (ih hp hq (by simpa using hlen) fun c hc hcB => ?_)
      exact hapart c (List.mem_cons_of_mem _ hc) (List.mem_cons_of_mem _ hcB)

/-- **The pointers meet at the first common node**, if the longer chain is first followed by as
many nodes as it is longer, or at none. -/
theorem returns_meet (h₁ : Path next p l₁ none) (h₂ : Path next q l₂ none) :
    Loop.Returns (fun n => meet next n (follow next (l₁.length - l₂.length) p)
      (follow next (l₂.length - l₁.length) q)) (l₁.find? (· ∈ l₂)) := by
  obtain ⟨A, B, T, hcross⟩ := exists_cross h₁ h₂
  have hlen₁ : l₁.length - l₂.length = A.length - B.length := by
    simp only [hcross.left, hcross.right, List.length_append]
    omega
  have hlen₂ : l₂.length - l₁.length = B.length - A.length := by
    simp only [hcross.left, hcross.right, List.length_append]
    omega
  have h₁' := h₁.drop (A.length - B.length)
  have h₂' := h₂.drop (B.length - A.length)
  rw [hcross.left, List.drop_append_of_le_length (by omega)] at h₁'
  rw [hcross.right, List.drop_append_of_le_length (by omega)] at h₂'
  rw [hcross.find?_eq, hlen₁, hlen₂]
  refine returns_meet_of_length_eq h₁' h₂' ?_ fun a ha hb => ?_
  · simp only [List.length_drop]
    omega
  · refine hcross.left_apart a (List.mem_of_mem_drop ha) ?_
    rw [hcross.right]
    exact List.mem_append_left _ (List.mem_of_mem_drop hb)

end Crossing

end BackendStudy
