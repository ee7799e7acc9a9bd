import Mathlib.Data.Int.Notation
import Mathlib.Data.List.Basic
import Mathlib.Tactic.Common

/-!
# Decimal numerals

The numeral of an integer is its digits behind its sign (`BackendStudy.Decimal.decimal`). A digit
behind the numeral of a positive number makes the numeral of a larger one, so a scan that
multiplies by ten and adds has at the end the number whose numeral it has passed
(`BackendStudy.Decimal.toDigits_append`), and a list of digits that does not begin with a zero is
the numeral of what the scan gives (`BackendStudy.Decimal.toDigits_ofDigitChars`).
-/

namespace BackendStudy

namespace Decimal

/-- **The numeral of an integer.** -/
def decimal (v : ℤ) : List Char :=
  if v < 0 then '-' :: Nat.toDigits 10 v.natAbs else Nat.toDigits 10 v.natAbs

section

variable {c : Char} {cs : List Char} {n : ℕ} {v w : ℤ}

theorem isDigit_iff : c.isDigit = true ↔ '0' ≤ c ∧ c ≤ '9' := by
  simp [Char.isDigit, Char.le_def]

theorem isDigit_iff_toNat : c.isDigit = true ↔ 48 ≤ c.toNat ∧ c.toNat ≤ 57 := by
  rw [isDigit_iff]
  exact Iff.rfl

/-- The value of a digit is less than ten, and the digit is that of its value. -/
theorem digit_value (hc : c.isDigit = true) :
    c.toNat - 48 < 10 ∧ Nat.digitChar (c.toNat - 48) = c := by
  have hrange := isDigit_iff_toNat.mp hc
  refine ⟨by omega, Char.toNat_inj.mp ?_⟩
  rw [Nat.toNat_digitChar_of_lt_ten (by omega)]
  omega

/-- A scan of digits does not become smaller. -/
theorem le_ofDigitChars (cs : List Char) (n : ℕ) : n ≤ Nat.ofDigitChars 10 cs n := by
  induction cs generalizing n with
  | nil => simp
  | cons c cs ih =>
    rw [Nat.ofDigitChars_cons]
    have hle := ih (10 * n + (c.toNat - '0'.toNat))
    omega

/-- **Digits behind a numeral.** -/
theorem toDigits_append (hn : 0 < n) (hcs : ∀ c ∈ cs, c.isDigit = true) :
    Nat.toDigits 10 n ++ cs = Nat.toDigits 10 (Nat.ofDigitChars 10 cs n) := by
  induction cs generalizing n with
  | nil => simp
  | cons c cs ih =>
    obtain ⟨hlt, hchar⟩ := digit_value (hcs c List.mem_cons_self)
    have hone : Nat.toDigits 10 n ++ [c] = Nat.toDigits 10 (10 * n + (c.toNat - 48)) := by
      have happend := Nat.toDigits_append_toDigits (b := 10) (by decide) hn hlt
      rwa [Nat.toDigits_of_lt_base hlt, hchar] at happend
    calc Nat.toDigits 10 n ++ c :: cs
        = Nat.toDigits 10 n ++ [c] ++ cs := by simp
      _ = Nat.toDigits 10 (10 * n + (c.toNat - 48)) ++ cs := by rw [hone]
      _ = Nat.toDigits 10 (Nat.ofDigitChars 10 (c :: cs) n) := by
        rw [ih (by omega) fun d hd => hcs d (List.mem_cons_of_mem _ hd)]
        rfl

/-- **Digits without a zero in front are a numeral.** -/
theorem toDigits_ofDigitChars (hcs : ∀ d ∈ c :: cs, d.isDigit = true) (hc : c ≠ '0') :
    Nat.toDigits 10 (Nat.ofDigitChars 10 cs (c.toNat - 48)) = c :: cs := by
  have hd := hcs c List.mem_cons_self
  obtain ⟨hlt, hchar⟩ := digit_value hd
  have hpos : 0 < c.toNat - 48 := by
    have hrange := isDigit_iff_toNat.mp hd
    have hne : c.toNat ≠ 48 := fun he => hc (Char.toNat_inj.mp he)
    omega
  rw [← toDigits_append hpos fun d hd => hcs d (List.mem_cons_of_mem _ hd),
    Nat.toDigits_of_lt_base hlt, hchar]
  rfl

/-- The numeral of a positive number does not begin with a zero. -/
theorem head?_toDigits_ne (hn : 0 < n) : (Nat.toDigits 10 n).head? ≠ some '0' := by
  induction n using Nat.strongRecOn with
  | ind n ih =>
    rw [Nat.toDigits_eq_if (by decide)]
    split
    · simp
      omega
    · have hdiv : 0 < n / 10 := by omega
      rw [List.head?_append_of_ne_nil _ Nat.toDigits_ne_nil]
      exact ih (n / 10) (by omega) hdiv

/-- The numeral of a positive number is digits without a zero in front. -/
theorem exists_toDigits_eq (hn : 0 < n) :
    ∃ c cs, Nat.toDigits 10 n = c :: cs ∧ (∀ d ∈ c :: cs, d.isDigit = true) ∧ c ≠ '0' ∧
      Nat.ofDigitChars 10 cs (c.toNat - 48) = n := by
  obtain ⟨c, cs, hcs⟩ := List.exists_cons_of_ne_nil (Nat.toDigits_ne_nil (n := n) (b := 10))
  have hdigits : ∀ d ∈ c :: cs, d.isDigit = true := fun d hd =>
    Nat.isDigit_of_mem_toDigits (by decide) (by decide) (hcs ▸ hd)
  have hne : c ≠ '0' := by
    rintro rfl
    exact head?_toDigits_ne hn (by rw [hcs, List.head?_cons])
  have hvalue : Nat.ofDigitChars 10 cs (c.toNat - 48) = n := by
    have hten := Nat.ofDigitChars_ten_toDigits (n := n)
    rwa [hcs, Nat.ofDigitChars_cons, Nat.mul_zero, Nat.zero_add] at hten
  exact ⟨c, cs, hcs, hdigits, hne, hvalue⟩

theorem toDigits_inj {m n : ℕ} : Nat.toDigits 10 m = Nat.toDigits 10 n ↔ m = n := by
  constructor
  · intro h
    have hten := congrArg (Nat.ofDigitChars 10 · 0) h
    simpa using hten
  · rintro rfl
    rfl

theorem decimal_natCast (n : ℕ) : decimal n = Nat.toDigits 10 n := by
  rw [decimal, if_neg (by omega), Int.natAbs_natCast]

theorem decimal_neg (hn : 0 < n) : decimal (-n) = '-' :: Nat.toDigits 10 n := by
  rw [decimal, if_pos (by omega), Int.natAbs_neg, Int.natAbs_natCast]

theorem decimal_zero : decimal 0 = ['0'] := by
  rw [decimal, if_neg (by decide), Int.natAbs_zero, Nat.toDigits_zero]

theorem decimal_ne_nil : decimal v ≠ [] := by
  unfold decimal
  split <;> simp

/-- The numeral of a natural number has no sign. -/
theorem toDigits_ne_neg : Nat.toDigits 10 n ≠ '-' :: cs := by
  intro h
  have hdigit := Nat.isDigit_of_mem_toDigits (c := '-') (by decide) (by decide)
    (h ▸ List.mem_cons_self)
  exact absurd hdigit (by decide)

/-- No two integers have the same numeral. -/
theorem decimal_inj : decimal v = decimal w ↔ v = w := by
  constructor
  · intro h
    unfold decimal at h
    split_ifs at h with hv hw hw
    · have := toDigits_inj.mp (List.cons.inj h).2
      omega
    · exact absurd h.symm toDigits_ne_neg
    · exact absurd h toDigits_ne_neg
    · have := toDigits_inj.mp h
      omega
  · rintro rfl
    rfl

/-- A numeral is digits, and perhaps a sign. -/
theorem mem_decimal {v : ℤ} (hc : c ∈ decimal v) : c = '-' ∨ c.isDigit = true := by
  unfold decimal at hc
  split at hc
  · rcases List.mem_cons.mp hc with rfl | hc
    · exact .inl rfl
    · exact .inr (Nat.isDigit_of_mem_toDigits (by decide) (by decide) hc)
  · exact .inr (Nat.isDigit_of_mem_toDigits (by decide) (by decide) hc)

end

end Decimal

end BackendStudy
