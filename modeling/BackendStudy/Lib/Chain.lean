import BackendStudy.Lib.Loop
import Mathlib.Data.List.Nodup

/-!
# Chains of links

A singly linked structure is a function `next : α → Option α` from nodes to links, `none`
being the null link. `BackendStudy.Chain.Path next p l q` says that following links from
`p` meets the nodes `l` in order and arrives at `q`; a list that ends is a path to `none`,
and it is then determined by where it starts (`BackendStudy.Chain.Path.unique`).

A path reads the links of its own nodes only (`BackendStudy.Chain.Path.congr`), so
appending and unlinking are changes at one node (`BackendStudy.Chain.Path.relink`); and a path
determines these links (`BackendStudy.Chain.Path.agree`). The loop that goes along a chain to
the first node with a property is here too (`BackendStudy.Chain.seek`), with what it finds on a
chain that ends (`BackendStudy.Chain.returns_seek`).

Links that are followed one by one (`BackendStudy.Chain.follow`) come to null exactly on a chain
that ends (`BackendStudy.Chain.exists_follow_eq_none_iff`).
-/

namespace BackendStudy

namespace Chain

variable {α : Type*}

/-- **A path of links** from `p` through the nodes `l` to `q`. -/
def Path (next : α → Option α) : Option α → List α → Option α → Prop
  | p, [], q => p = q
  | p, a :: l, q => p = some a ∧ Path next (next a) l q

section Path

variable {next next' : α → Option α} {p q r : Option α} {l l' : List α} {a : α}

@[simp] theorem path_nil : Path next p [] q ↔ p = q := Iff.rfl

@[simp] theorem path_cons : Path next p (a :: l) q ↔ p = some a ∧ Path next (next a) l q := Iff.rfl

/-- A path through two parts, and the link between them. -/
theorem path_append : Path next p (l ++ l') q ↔ ∃ m, Path next p l m ∧ Path next m l' q := by
  induction l generalizing p with
  | nil => simp
  | cons b l ih =>
    rw [List.cons_append, path_cons, ih]
    constructor
    · rintro ⟨rfl, m, hl, hl'⟩
      exact ⟨m, ⟨rfl, hl⟩, hl'⟩
    · rintro ⟨m, ⟨rfl, hl⟩, hl'⟩
      exact ⟨rfl, m, hl, hl'⟩

/-- A path reads the links of its own nodes only. -/
theorem Path.congr (h : Path next p l q) (he : ∀ a ∈ l, next' a = next a) : Path next' p l q := by
  induction l generalizing p with
  | nil => exact h
  | cons b l ih =>
    refine ⟨h.1, ?_⟩
    rw [he b (by simp)]
    exact ih h.2 fun a ha => he a (by simp [ha])

/-- **A chain that ends is determined by its start.** -/
theorem Path.unique (h : Path next p l none) (h' : Path next p l' none) : l = l' := by
  induction l generalizing p l' with
  | nil =>
    obtain rfl : p = none := h
    cases l' with
    | nil => rfl
    | cons b l' => exact absurd h'.1 (by simp)
  | cons a l ih =>
    obtain ⟨rfl, hl⟩ := h
    cases l' with
    | nil => exact absurd h' (by simp)
    | cons b l' =>
      obtain ⟨he, hl'⟩ := h'
      obtain rfl := Option.some.inj he
      rw [ih hl hl']

/-- **Relinking the last node of a path** moves its end. -/
theorem Path.relink (h : Path next p (l ++ [a]) q) (hnodup : (l ++ [a]).Nodup)
    (he : ∀ b, b ≠ a → next' b = next b) (ha : next' a = r) : Path next' p (l ++ [a]) r := by
  obtain ⟨m, hl, hm⟩ := path_append.mp h
  have hal : a ∉ l := fun hmem => by
    simpa using (List.nodup_append.mp hnodup).2.2 a hmem a (by simp)
  have hl' : Path next' p l m := hl.congr fun b hb => he b fun hba => hal (hba ▸ hb)
  exact path_append.mpr ⟨m, hl', hm.1, ha⟩

/-- **A chain that ends meets no node twice**: there would be two ways from it to the end. -/
theorem Path.nodup (h : Path next p l none) : l.Nodup := by
  induction l generalizing p with
  | nil => exact List.nodup_nil
  | cons b l ih =>
    obtain ⟨rfl, hl⟩ := h
    refine List.nodup_cons.mpr ⟨fun hmem => ?_, ih hl⟩
    obtain ⟨A, B, rfl⟩ := List.append_of_mem hmem
    obtain ⟨m, -, rfl, hB⟩ := path_append.mp hl
    have hlen := congrArg List.length (hl.unique hB)
    simp only [List.length_append, List.length_cons] at hlen
    omega

/-- Paths through the same nodes to the same end start at the same link. -/
theorem Path.start_eq (h : Path next p l q) (h' : Path next' r l q) : p = r := by
  cases l with
  | nil => exact Eq.trans h h'.symm
  | cons b l => exact h.1.trans h'.1.symm

/-- A chain that ends starts at its first node, if it has one. -/
theorem Path.eq_head? (h : Path next p l none) : p = l.head? := by
  cases l with
  | nil => exact h
  | cons b l => exact h.1

/-- **Two systems of links with the same path** have the same links along it. -/
theorem Path.agree (h : Path next p l q) (h' : Path next' r l q) : ∀ a ∈ l, next' a = next a := by
  induction l generalizing p r with
  | nil => exact fun a ha => absurd ha List.not_mem_nil
  | cons b l ih =>
    intro a ha
    rcases List.mem_cons.mp ha with rfl | ha
    · exact h'.2.start_eq h.2
    · exact ih h.2 h'.2 a ha

end Path

/-! ### Following links -/

/-- What a number of links lead to. -/
def follow (next : α → Option α) (n : ℕ) (p : Option α) : Option α := (·.bind next)^[n] p

section Follow

variable {next : α → Option α} {p q : Option α} {l : List α} {n : ℕ}

@[simp] theorem follow_zero : follow next 0 p = p := rfl

theorem follow_succ' : follow next (n + 1) p = (follow next n p).bind next :=
  Function.iterate_succ_apply' _ _ _

theorem follow_add (m : ℕ) : follow next (m + n) p = follow next m (follow next n p) :=
  Function.iterate_add_apply _ _ _ _

/-- There are no links from null. -/
@[simp] theorem follow_none : follow next n none = none := by
  induction n with
  | zero => rfl
  | succ n ih => exact ih

/-- Where links have come to null, they stay. -/
theorem follow_eq_none {m : ℕ} (h : follow next n p = none) (hle : n ≤ m) :
    follow next m p = none := by
  obtain ⟨d, rfl⟩ := Nat.exists_eq_add_of_le' hle
  rw [follow_add, h, follow_none]

/-- The links of a path lead to its end. -/
theorem Path.follow_length (h : Path next p l q) : follow next l.length p = q := by
  induction l generalizing p with
  | nil => exact h
  | cons a l ih =>
    obtain ⟨rfl, hl⟩ := h
    exact ih hl

/-- What is left of a chain that ends. -/
theorem Path.drop (h : Path next p l none) (n : ℕ) :
    Path next (follow next n p) (l.drop n) none := by
  induction n generalizing p l with
  | zero => exact h
  | succ n ih =>
    cases l with
    | nil =>
      obtain rfl := h
      exact follow_none
    | cons a l =>
      obtain ⟨rfl, hl⟩ := h
      exact ih hl

/-- **Links come to null** exactly if they are a chain that ends. -/
theorem exists_follow_eq_none_iff :
    (∃ n, follow next n p = none) ↔ ∃ l, Path next p l none := by
  constructor
  · rintro ⟨n, hn⟩
    induction n generalizing p with
    | zero => exact ⟨[], hn⟩
    | succ n ih =>
      cases p with
      | none => exact ⟨[], rfl⟩
      | some a =>
        obtain ⟨l, hl⟩ := ih hn
        exact ⟨a :: l, rfl, hl⟩
  · rintro ⟨l, hl⟩
    exact ⟨l.length, hl.follow_length⟩

end Follow

/-! ### Going along a chain -/

/-- One round of a search along a chain: the state is the link to follow and the link of
the node visited last, and the search leaves at the first node that is wanted. -/
def seekStep (next : α → Option α) (wanted : α → Bool) :
    Option α × Option α → (Option α × Option α) ⊕ (Option α × Option α)
  | (none, prev) => .inr (none, prev)
  | (some a, _) => if wanted a then .inr (some a, some a) else .inl (next a, some a)

/-- The search along a chain: the first node that is wanted, and the node visited last. -/
def seek (next : α → Option α) (wanted : α → Bool) (fuel : ℕ) (p prev : Option α) :
    Option (Option α × Option α) :=
  Loop.run (seekStep next wanted) fuel (p, prev)

section Seek

variable {next : α → Option α} {wanted : α → Bool} {p prev : Option α} {l : List α}

/-- **The search of a chain that ends** returns the first node that is wanted, or visits the
last node. -/
theorem returns_seek (h : Path next p l none) :
    ∃ last, Loop.Returns (fun n => seek next wanted n p prev) (l.find? wanted, last) ∧
      (l.find? wanted = none → last = l.getLast?.or prev) := by
  induction l generalizing p prev with
  | nil =>
    obtain rfl : p = none := h
    exact ⟨prev, Loop.returns_run_inr rfl, fun _ => rfl⟩
  | cons a l ih =>
    obtain ⟨rfl, hl⟩ := h
    by_cases ha : wanted a = true
    · refine ⟨some a, Loop.returns_run_inr ?_, fun hnone => ?_⟩
      · rw [List.find?_cons_of_pos ha]
        exact if_pos ha
      · rw [List.find?_cons_of_pos ha] at hnone
        exact absurd hnone (by simp)
    · obtain ⟨last, hret, hlast⟩ := @ih (next a) (some a) hl
      rw [List.find?_cons_of_neg ha]
      refine ⟨last, Loop.returns_run_inl (if_neg ha) hret, fun hnone => ?_⟩
      rw [hlast hnone]
      cases l with
      | nil => rfl
      | cons b l => simp [List.getLast?_cons]

/-- What a search has returned on a chain that ends. -/
theorem seek_eq {fuel : ℕ} {found last : Option α} (h : Path next p l none)
    (hs : seek next wanted fuel p prev = some (found, last)) :
    found = l.find? wanted ∧ (found = none → last = l.getLast?.or prev) := by
  obtain ⟨last', hret, hlast⟩ := @returns_seek _ _ wanted _ prev _ h
  have he := ((Loop.stable_run _ _).returns hs).unique hret
  obtain ⟨rfl, rfl⟩ := Prod.mk.inj he
  exact ⟨rfl, hlast⟩

end Seek

end Chain

end BackendStudy
