import Mathlib.Data.List.Basic

/-!
# Parsers that read as much as there is

A parser that is fed a stream in pieces is a step function on its state and on what it has not
read (`BackendStudy.Incremental.Outcome`): it waits for more, or it reads some of it, perhaps with
a result, or it fails. It is *steady* when more behind what it has not read changes nothing but
the waiting (`BackendStudy.Incremental.Steady`).

A steady parser does not see where the pieces end. What it reads of a part of the stream it also
reads of the whole (`BackendStudy.Incremental.Reads.append`), and two readings of one stream agree
as far as both have come (`BackendStudy.Incremental.Reads.comparable`). So if a stream can be read
to its end, a parser that has been fed a part of it has the first of the results and has not
failed, and when it has been fed all of it and waits it has all of them
(`BackendStudy.Incremental.Reads.of_whole`).
-/

namespace BackendStudy

namespace Incremental

variable {σ β ρ ε : Type*}

/-- What one step of a parser comes to. -/
inductive Outcome (σ ρ ε : Type*)
  /-- There is not enough to go on with. -/
  | wait
  /-- So many elements are read, and there may be a result. -/
  | next (n : ℕ) (s : σ) (out : Option ρ)
  /-- What there is cannot be read. -/
  | fail (e : ε)

/-- **A steady parser**: what it does, it also does with more behind. -/
structure Steady (step : σ → List β → Outcome σ ρ ε) : Prop where
  le_length : ∀ {s u n s' o}, step s u = .next n s' o → n ≤ u.length
  next : ∀ {s u n s' o}, step s u = .next n s' o → ∀ w, step s (u ++ w) = .next n s' o
  fail : ∀ {s u e}, step s u = .fail e → ∀ w, step s (u ++ w) = .fail e

/-- **A reading**: the results so far, the state, and what is left. -/
inductive Reads (step : σ → List β → Outcome σ ρ ε) (s₀ : σ) (u₀ : List β) :
    List ρ → σ → List β → Prop
  /-- Nothing has been read. -/
  | nil : Reads step s₀ u₀ [] s₀ u₀
  /-- One more step. -/
  | snoc {outs : List ρ} {s : σ} {u : List β} {n : ℕ} {s' : σ} {o : Option ρ} :
      Reads step s₀ u₀ outs s u → step s u = .next n s' o →
      Reads step s₀ u₀ (outs ++ o.toList) s' (u.drop n)

section

variable {step : σ → List β → Outcome σ ρ ε} {s₀ s s' : σ} {u₀ u u' w : List β}
  {outs outs' : List ρ} {o : Option ρ} {n : ℕ}

/-- A reading of one step. -/
theorem Reads.single (h : step s u = .next n s' o) : Reads step s u o.toList s' (u.drop n) :=
  Reads.nil.snoc h

theorem Reads.trans (h : Reads step s₀ u₀ outs s u) (h' : Reads step s u outs' s' u') :
    Reads step s₀ u₀ (outs ++ outs') s' u' := by
  induction h' with
  | nil => simpa using h
  | snoc _ hs ih => simpa using ih.snoc hs

/-- What is left is the end of what there was. -/
theorem Reads.suffix (h : Reads step s₀ u₀ outs s u) : u <:+ u₀ := by
  induction h with
  | nil => exact List.suffix_refl _
  | snoc _ _ ih => exact (List.drop_suffix _ _).trans ih

/-- **What is read of a part of a stream is read of the whole.** -/
theorem Reads.append (hsteady : Steady step) (h : Reads step s₀ u₀ outs s u) (w : List β) :
    Reads step s₀ (u₀ ++ w) outs s (u ++ w) := by
  induction h with
  | nil => exact .nil
  | snoc _ hs ih =>
    have hdrop := ih.snoc (hsteady.next hs w)
    rwa [List.drop_append_of_le_length (hsteady.le_length hs)] at hdrop

/-- The first step of a reading. -/
theorem Reads.head (h : Reads step s₀ u₀ outs s u) :
    (outs = [] ∧ s = s₀ ∧ u = u₀) ∨
      ∃ n s₁ o d, step s₀ u₀ = .next n s₁ o ∧ outs = o.toList ++ d ∧
        Reads step s₁ (u₀.drop n) d s u := by
  induction h with
  | nil => exact .inl ⟨rfl, rfl, rfl⟩
  | @snoc outs s u n s' o _ hs ih =>
    rcases ih with ⟨rfl, rfl, rfl⟩ | ⟨m, s₁, o₁, d, h₁, rfl, hd⟩
    · exact .inr ⟨n, s', o, [], hs, by simp, .nil⟩
    · exact .inr ⟨m, s₁, o₁, d ++ o.toList, h₁, by simp, hd.snoc hs⟩

/-- **Two readings of one stream**: one of them goes on from the other. -/
theorem Reads.comparable (h : Reads step s₀ u₀ outs s u) (h' : Reads step s₀ u₀ outs' s' u') :
    (∃ d, outs' = outs ++ d ∧ Reads step s u d s' u') ∨
      ∃ d, outs = outs' ++ d ∧ Reads step s' u' d s u := by
  induction h' with
  | nil => exact .inr ⟨outs, by simp, h⟩
  | @snoc outs' t v n t' o _ hs ih =>
    rcases ih with ⟨d, rfl, hd⟩ | ⟨d, rfl, hd⟩
    · exact .inl ⟨d ++ o.toList, by simp, hd.snoc hs⟩
    · -- the other reading has not ended here, or its next step is this one
      rcases hd.head with ⟨rfl, rfl, rfl⟩ | ⟨m, s₁, o₁, c, h₁, rfl, hc⟩
      · exact .inl ⟨o.toList, by simp, .single hs⟩
      · obtain ⟨rfl, rfl, rfl⟩ : m = n ∧ s₁ = t' ∧ o₁ = o := by simpa [h₁] using hs
        exact .inr ⟨c, by simp, hc⟩

/-- A reading from where the parser waits does not get anywhere. -/
theorem Reads.of_wait (hwait : step s₀ u₀ = .wait) (h : Reads step s₀ u₀ outs s u) :
    outs = [] ∧ s = s₀ ∧ u = u₀ := by
  rcases h.head with h | ⟨n, s₁, o, d, h₁, -, -⟩
  · exact h
  · exact absurd (hwait.symm.trans h₁) (by simp)

/-- **A stream that can be read to its end**, of which the parser has been fed a part: it has the
first of the results, it has not failed, and if there is no more of the stream and it waits, it
has all of them. -/
theorem Reads.of_whole (hsteady : Steady step) (h : Reads step s₀ u₀ outs s u)
    (hall : Reads step s₀ (u₀ ++ w) outs' s' []) (hwait : step s' [] = .wait) :
    outs <+: outs' ∧ (∀ e, step s u ≠ .fail e) ∧
      (w = [] → step s u = .wait → outs = outs' ∧ s = s' ∧ u = []) := by
  -- where the parser is in the reading of the whole
  have hpart : ∃ d, outs' = outs ++ d ∧ Reads step s (u ++ w) d s' [] := by
    rcases (h.append hsteady w).comparable hall with hd | ⟨d, rfl, hd⟩
    · exact hd
    · obtain ⟨rfl, rfl, hu⟩ := hd.of_wait hwait
      rw [hu]
      exact ⟨[], by simp, .nil⟩
  obtain ⟨d, rfl, hd⟩ := hpart
  refine ⟨List.prefix_append _ _, fun e he => ?_, fun hw hstop => ?_⟩
  · have hfail := hsteady.fail he w
    rcases hd.head with ⟨-, rfl, hu⟩ | ⟨n, s₁, o, c, h₁, -, -⟩
    · rw [← hu, hwait] at hfail
      exact absurd hfail (by simp)
    · exact absurd (hfail.symm.trans h₁) (by simp)
  · rw [hw, List.append_nil] at hd
    obtain ⟨rfl, rfl, rfl⟩ := hd.of_wait hstop
    simp

end

end Incremental

end BackendStudy
