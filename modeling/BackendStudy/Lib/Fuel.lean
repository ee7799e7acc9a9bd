import Mathlib.Order.Filter.AtTopBot.Basic
import BackendStudy.Lib.Slots

/-!
# Faults of computations on fuel

A computation that need not end takes an amount of fuel, and one of its errors, `e₀`, says that
the fuel was not enough. It is *stable* when more fuel changes no other result
(`BackendStudy.Fuel.Stable`) and *safe* when no amount of fuel gives another error
(`BackendStudy.Fuel.Safe`): it may run on for ever, but it does nothing wrong on the way. What
it comes to on some fuel it comes to on all larger amounts (`BackendStudy.Fuel.Yields`).

A sequence is safe if and only if its first part is, and its second part is after all that the
first can yield (`BackendStudy.Fuel.safe_bind_iff`).
-/

namespace BackendStudy

namespace Fuel

open Filter

universe u v

variable {ε : Type v} {α β : Type u} {e₀ : ε}

/-- **Fuel does not matter** for a result other than `e₀`. -/
def Stable (e₀ : ε) (f : ℕ → Except ε α) : Prop :=
  ∀ ⦃m n⦄, m ≤ n → f m ≠ .error e₀ → f n = f m

/-- **No error but `e₀`**, on any fuel. -/
def Safe (e₀ : ε) (f : ℕ → Except ε α) : Prop := ∀ n e, f n = .error e → e = e₀

/-- **A value that a computation comes to**, on some fuel. -/
def Yields (f : ℕ → Except ε α) (a : α) : Prop := ∃ n, f n = .ok a

theorem stable_const (x : Except ε α) : Stable e₀ fun _ => x := fun _ _ _ _ => rfl

theorem Stable.bind {f : ℕ → Except ε α} {g : ℕ → α → Except ε β} (hf : Stable e₀ f)
    (hg : ∀ a, Stable e₀ fun n => g n a) : Stable e₀ fun n => f n >>= g n := by
  intro m n hle hne
  cases ha : f m with
  | error e =>
    have he : f m ≠ .error e₀ := by
      simp only [ha, Slots.error_bind, ne_eq, Except.error.injEq] at hne ⊢
      exact hne
    simp only [hf hle he, ha, Slots.error_bind]
  | ok a =>
    have he : f m ≠ .error e₀ := by simp [ha]
    simp only [ha, Slots.ok_bind] at hne
    simp only [hf hle he, ha, Slots.ok_bind]
    exact hg a hle hne

theorem Stable.ite {p : Prop} [Decidable p] {f g : ℕ → Except ε α} (hf : Stable e₀ f)
    (hg : Stable e₀ g) : Stable e₀ fun n => if p then f n else g n := by
  by_cases hp : p
  · simpa [hp] using hf
  · simpa [hp] using hg

/-- What a stable computation yields, it returns. -/
theorem Stable.eventually {f : ℕ → Except ε α} (hf : Stable e₀ f) {a : α} (h : Yields f a) :
    ∀ᶠ n in atTop, f n = .ok a := by
  obtain ⟨m, hm⟩ := h
  refine eventually_atTop.mpr ⟨m, fun n hn => ?_⟩
  rw [hf hn (by simp [hm]), hm]

theorem Stable.yields_unique {f : ℕ → Except ε α} (hf : Stable e₀ f) {a b : α} (ha : Yields f a)
    (hb : Yields f b) : a = b := by
  obtain ⟨n, hna, hnb⟩ := ((hf.eventually ha).and (hf.eventually hb)).exists
  exact Except.ok.inj (hna.symm.trans hnb)

/-- What yields a value has no error on the way. -/
theorem Stable.safe {f : ℕ → Except ε α} (hf : Stable e₀ f) {a : α} (h : Yields f a) :
    Safe e₀ f := by
  intro n e he
  by_contra hne
  obtain ⟨m, hm⟩ := h
  have hn := hf (le_max_left n m) (by
    rw [he]
    exact fun heq => hne (Except.error.inj heq))
  have hm' := hf (le_max_right n m) (by simp [hm])
  exact absurd (he.symm.trans (hn.symm.trans (hm'.trans hm))) (by simp)

theorem Stable.yields_bind {f : ℕ → Except ε α} {g : ℕ → α → Except ε β} (hf : Stable e₀ f)
    {a : α} {b : β} (ha : Yields f a) (hg : Stable e₀ fun n => g n a)
    (hb : Yields (fun n => g n a) b) : Yields (fun n => f n >>= g n) b := by
  obtain ⟨n, hfn, hgn⟩ := ((hf.eventually ha).and (hg.eventually hb)).exists
  exact ⟨n, by simp only [hfn, Slots.ok_bind, hgn]⟩

/-- What a sequence yields comes from what its first part yields. -/
theorem yields_of_bind {f : ℕ → Except ε α} {g : ℕ → α → Except ε β} {b : β}
    (h : Yields (fun n => f n >>= g n) b) : ∃ a, Yields f a ∧ Yields (fun n => g n a) b := by
  obtain ⟨n, hn⟩ := h
  cases ha : f n with
  | error e => exact absurd hn (by simp [ha])
  | ok a => exact ⟨a, ⟨n, ha⟩, n, by simpa [ha] using hn⟩

/-- A computation that needs no fuel is safe when it has no error. -/
theorem safe_const_iff {x : Except ε α} (hx : x ≠ .error e₀) :
    Safe e₀ (fun _ => x) ↔ ∃ a, x = .ok a := by
  constructor
  · intro h
    cases x with
    | ok a => exact ⟨a, rfl⟩
    | error e => exact absurd (congrArg Except.error (h 0 e rfl)) hx
  · rintro ⟨a, rfl⟩ n e he
    exact absurd he (by simp)

/-- **Sequences are safe** when both parts are. -/
theorem safe_bind_iff {f : ℕ → Except ε α} {g : ℕ → α → Except ε β} (hf : Stable e₀ f)
    (hg : ∀ a, Stable e₀ fun n => g n a) :
    Safe e₀ (fun n => f n >>= g n) ↔
      Safe e₀ f ∧ ∀ a, Yields f a → Safe e₀ fun n => g n a := by
  constructor
  · intro h
    refine ⟨fun n e he => h n e (by simp only [he, Slots.error_bind]), ?_⟩
    rintro a ⟨m, hm⟩ n e he
    by_contra hne
    -- enough fuel for both parts
    have hfa : f (max m n) = .ok a := by
      rw [hf (le_max_left m n) (by simp [hm]), hm]
    have hga : g (max m n) a = .error e := by
      have := hg a (le_max_right m n)
      simp only [he] at this
      exact this fun heq => hne (Except.error.inj heq)
    exact hne (h (max m n) e (by simp only [hfa, Slots.ok_bind, hga]))
  · rintro ⟨hsf, hsg⟩ n e he
    cases ha : f n with
    | error e' =>
      simp only [ha, Slots.error_bind] at he
      obtain rfl := Except.error.inj he
      exact hsf n e' ha
    | ok a =>
      simp only [ha, Slots.ok_bind] at he
      exact hsg a ⟨n, ha⟩ n e he

/-- The same, where the first part needs no fuel. -/
theorem safe_const_bind_iff {x : Except ε α} {g : ℕ → α → Except ε β} (hx : x ≠ .error e₀)
    (hg : ∀ a, Stable e₀ fun n => g n a) :
    Safe e₀ (fun n => x >>= g n) ↔ ∃ a, x = .ok a ∧ Safe e₀ fun n => g n a := by
  rw [safe_bind_iff (stable_const x) hg, safe_const_iff hx]
  constructor
  · rintro ⟨⟨a, ha⟩, h⟩
    exact ⟨a, ha, h a ⟨0, ha⟩⟩
  · rintro ⟨a, ha, h⟩
    refine ⟨⟨a, ha⟩, ?_⟩
    rintro b ⟨n, hb⟩
    obtain rfl := Except.ok.inj (ha.symm.trans hb)
    exact h

end Fuel

end BackendStudy
