import BackendStudy.Hiredis.Reader
import BackendStudy.Lib.Decimal
import Mathlib.Data.List.Infix

/-!
# Lines and numbers of the protocol

The two scanners of the reader. `string2ll` accepts the numerals of the numbers of 64 bits and
nothing else (`BackendStudy.Hiredis.string2ll_eq_some_iff`). `seekNewline` finds the first
`"\r\n"` (`BackendStudy.Hiredis.newline_eq_some_iff`), in a buffer whose length is an `int`
(`BackendStudy.Hiredis.seekNewline_eq`).
-/

namespace BackendStudy

namespace Hiredis

open Redis Decimal

variable {s l w : Str} {c : Char} {k n v : ℕ} {z : ℤ}

/-! ### Numbers -/

/-- The loop over the digits comes to the end of what is digits and does not overflow. -/
theorem digitLoop_eq_some_iff (hv : v < 2 ^ 64) :
    digitLoop s v = some (n, []) ↔
      (∀ c ∈ s, c.isDigit = true) ∧ Nat.ofDigitChars 10 s v = n ∧ n < 2 ^ 64 := by
  induction s generalizing v with
  | nil =>
    simp only [digitLoop, Option.some.injEq, Prod.mk.injEq, and_true, List.not_mem_nil,
      false_implies, implies_true, Nat.ofDigitChars_nil, true_and]
    constructor
    · rintro rfl
      exact ⟨rfl, hv⟩
    · exact And.left
  | cons c s ih =>
    rw [digitLoop]
    by_cases hc : '0' ≤ c ∧ c ≤ '9'
    · have hdigit : c.isDigit = true := isDigit_iff.mpr hc
      have hlt := (digit_value hdigit).1
      have hzero : '0'.toNat = 48 := rfl
      simp only [if_pos hc, hzero, List.forall_mem_cons, hdigit, true_and, Nat.ofDigitChars_cons]
      have hmul : v * 10 + (c.toNat - 48) = 10 * v + (c.toNat - 48) := by omega
      by_cases hover : 10 * v + (c.toNat - 48) < 2 ^ 64
      · rw [if_neg (by omega), if_neg (by omega), hmul]
        exact ih hover
      · -- the value only grows
        have hle := le_ofDigitChars s (10 * v + (c.toNat - 48))
        constructor
        · intro h
          split_ifs at h
          omega
        · rintro ⟨-, rfl, hn⟩
          omega
    · have hdigit : ¬ c.isDigit = true := fun h => hc (isDigit_iff.mp h)
      simp [if_neg hc, hdigit]

/-- What is behind the sign is the numeral of a positive number. -/
theorem magnitude_eq_some_iff :
    magnitude s = some n ↔ s = Nat.toDigits 10 n ∧ 0 < n ∧ n < 2 ^ 64 := by
  rcases s with _ | ⟨c, s⟩
  · simp only [magnitude, reduceCtorEq, false_iff, not_and]
    exact fun h => absurd h.symm Nat.toDigits_ne_nil
  -- a number starts with a digit that is not zero
  by_cases hc : '1' ≤ c ∧ c ≤ '9'
  · have hone : 49 ≤ c.toNat ∧ c.toNat ≤ 57 := hc
    have hdigit : c.isDigit = true := isDigit_iff_toNat.mpr ⟨by omega, hone.2⟩
    have hne : c ≠ '0' := by
      rintro rfl
      exact absurd hc.1 (by decide)
    have hrange := isDigit_iff_toNat.mp hdigit
    have hloop : magnitude (c :: s) = some n ↔ digitLoop s (c.toNat - 48) = some (n, []) := by
      rw [magnitude, if_pos hc]
      have hzero : '0'.toNat = 48 := rfl
      rw [hzero]
      rcases digitLoop s (c.toNat - 48) with _ | ⟨v, _ | ⟨d, p⟩⟩ <;> simp
    rw [hloop, digitLoop_eq_some_iff (by omega)]
    constructor
    -- the loop has read digits, and a number of digits without a leading zero is written so
    · rintro ⟨hs, rfl, hlt⟩
      have hpos : 0 < c.toNat - 48 := by
        have : c.toNat ≠ 48 := fun he => hne (Char.toNat_inj.mp he)
        omega
      have hle := le_ofDigitChars s (c.toNat - 48)
      refine ⟨(toDigits_ofDigitChars ?_ hne).symm, by omega, hlt⟩
      exact List.forall_mem_cons.mpr ⟨hdigit, hs⟩
    · rintro ⟨hs, hpos, hlt⟩
      obtain ⟨d, ds, hds, hdigits, -, hvalue⟩ := exists_toDigits_eq hpos
      obtain ⟨rfl, rfl⟩ := List.cons.inj (hs.trans hds)
      exact ⟨fun e he => hdigits e (List.mem_cons_of_mem _ he), hvalue, hlt⟩
  · rw [magnitude, if_neg hc]
    simp only [reduceCtorEq, false_iff]
    rintro ⟨hs, hpos, -⟩
    obtain ⟨d, ds, hds, hdigits, hne, -⟩ := exists_toDigits_eq hpos
    obtain ⟨rfl, -⟩ := List.cons.inj (hs.trans hds)
    have hrange := isDigit_iff_toNat.mp (hdigits c List.mem_cons_self)
    have hzero : c.toNat ≠ 48 := fun he => hne (Char.toNat_inj.mp he)
    refine hc ⟨?_, ?_⟩
    · change 49 ≤ c.toNat
      omega
    · change c.toNat ≤ 57
      omega

/-- **The numbers that are read are those of 64 bits, as their numerals.** -/
theorem string2ll_eq_some_iff :
    string2ll s = some z ↔ s = decimal z ∧ -2 ^ 63 ≤ z ∧ z < 2 ^ 63 := by
  -- a second sign is no digit
  have hminus : ∀ p, magnitude ('-' :: p) = none := fun p => by
    rw [magnitude, if_neg (by decide)]
  unfold string2ll
  split
  · simp only [reduceCtorEq, false_iff, not_and]
    exact fun h => absurd h.symm decimal_ne_nil
  · rw [← decimal_zero, decimal_inj, Option.some.injEq]
    constructor
    · rintro rfl
      exact ⟨rfl, by decide, by decide⟩
    · exact And.left
  -- behind a minus sign, where the magnitude goes up to `2 ^ 63`
  · next p =>
    constructor
    · intro h
      split at h
      · next v hv =>
        obtain ⟨rfl, hpos, -⟩ := magnitude_eq_some_iff.mp hv
        split_ifs at h with hle
        obtain rfl := Option.some.inj h
        exact ⟨(decimal_neg hpos).symm, by omega, by omega⟩
      · exact absurd h (by simp)
    · rintro ⟨hp, hlow, -⟩
      by_cases hz : z < 0
      · obtain ⟨v, rfl⟩ : ∃ v : ℕ, z = -v := ⟨z.natAbs, by omega⟩
        rw [decimal_neg (by omega)] at hp
        have hv : magnitude p = some v :=
          magnitude_eq_some_iff.mpr ⟨(List.cons.inj hp).2, by omega, by omega⟩
        rw [hv]
        dsimp only
        rw [if_neg (by omega)]
      · obtain ⟨v, rfl⟩ : ∃ v : ℕ, z = v := ⟨z.natAbs, by omega⟩
        rw [decimal_natCast] at hp
        exact absurd hp.symm toDigits_ne_neg
  -- without a sign, and neither empty nor zero
  · next p _ hzero hsign =>
    constructor
    · intro h
      split at h
      · next v hv =>
        obtain ⟨rfl, hpos, -⟩ := magnitude_eq_some_iff.mp hv
        split_ifs at h with hle
        obtain rfl := Option.some.inj h
        exact ⟨(decimal_natCast v).symm, by omega, by omega⟩
      · exact absurd h (by simp)
    · rintro ⟨rfl, -, hhigh⟩
      by_cases hz : z < 0
      · obtain ⟨v, rfl⟩ : ∃ v : ℕ, z = -v := ⟨z.natAbs, by omega⟩
        exact absurd (decimal_neg (by omega)) (hsign _)
      · obtain ⟨v, rfl⟩ : ∃ v : ℕ, z = v := ⟨z.natAbs, by omega⟩
        have hpos : 0 < v := by
          rcases Nat.eq_zero_or_pos v with rfl | hpos
          · exact absurd decimal_zero hzero
          · exact hpos
        have hv : magnitude (decimal v) = some v :=
          magnitude_eq_some_iff.mpr ⟨decimal_natCast v, hpos, by omega⟩
        rw [hv]
        dsimp only
        rw [if_neg (by omega)]

/-! ### Lines -/

/-- `"\r\n"`. -/
def crlf : Str := ['\r', '\n']

/-- The position of the first `"\r\n"`. -/
def newline (s : Str) : Option ℕ := seekLoop s.length s

/-- **A line**: there is no `"\r\n"` in it. -/
def IsLine (l : Str) : Prop := ¬ crlf <:+: l

theorem newline_cons (c : Char) (s : Str) :
    newline (c :: s) = if crlf <+: c :: s then some 0 else (newline s).map (· + 1) := by
  rw [newline, List.length_cons, seekLoop]
  simp only [List.isPrefixOf_iff_prefix]
  rfl

/-- The last byte need not be looked at. -/
theorem seekLoop_eq {left : ℕ} (h : s.length ≤ left + 1) : seekLoop left s = newline s := by
  induction s generalizing left with
  | nil => cases left <;> rfl
  | cons c s ih =>
    rw [newline_cons]
    rw [List.length_cons] at h
    cases left with
    | zero =>
      obtain rfl : s = [] := List.eq_nil_of_length_eq_zero (by omega)
      have hshort : ¬ crlf <+: [c] := fun hp => by simpa [crlf] using hp.length_le
      rw [if_neg hshort]
      rfl
    | succ left =>
      rw [seekLoop]
      simp only [List.isPrefixOf_iff_prefix]
      rw [ih (by omega)]
      rfl

/-- **The search, in a buffer that is not too large.** -/
theorem seekNewline_eq (h : s.length ≤ 2 ^ 31) : seekNewline s = newline s := by
  have hint : toInt (s.length - 1) = s.length - 1 := by
    rw [toInt, Int.bmod_eq_of_le] <;> omega
  rw [seekNewline, hint]
  exact seekLoop_eq (by omega)

/-- A line that is not empty does not begin with a `"\r\n"`, not with one behind it either. -/
theorem IsLine.not_prefix (hl : IsLine (c :: l)) : ¬ crlf <+: c :: l ++ (crlf ++ w) := by
  intro hp
  rcases l with _ | ⟨d, l⟩
  · simp [crlf] at hp
  · have hstart : crlf <+: c :: d :: l :=
      List.prefix_of_prefix_length_le hp (List.prefix_append _ _) (by simp [crlf])
    exact hl hstart.isInfix

theorem IsLine.tail (hl : IsLine (c :: l)) : IsLine l :=
  fun h => hl (h.trans (List.suffix_cons _ _).isInfix)

/-- **The first line** of a text, and what is behind it. -/
theorem newline_append (hl : IsLine l) (w : Str) : newline (l ++ (crlf ++ w)) = some l.length := by
  induction l with
  | nil =>
    have hp : crlf <+: '\r' :: '\n' :: w := List.prefix_append crlf w
    exact (newline_cons _ _).trans (if_pos hp)
  | cons c l ih =>
    have hskip := newline_cons c (l ++ (crlf ++ w))
    rw [if_neg (show ¬ crlf <+: c :: (l ++ (crlf ++ w)) from hl.not_prefix), ih hl.tail] at hskip
    exact hskip

/-- What the search finds is the end of the first line. -/
theorem exists_line (h : newline s = some k) :
    ∃ l w, s = l ++ (crlf ++ w) ∧ l.length = k ∧ IsLine l := by
  induction s generalizing k with
  | nil => simp [newline, seekLoop] at h
  | cons c s ih =>
    rw [newline_cons] at h
    split_ifs at h with hp
    · obtain ⟨w, hw⟩ := hp
      obtain rfl := Option.some.inj h
      exact ⟨[], w, hw.symm, rfl, fun hin => by simpa [crlf] using hin.length_le⟩
    · obtain ⟨j, hj, rfl⟩ := Option.map_eq_some_iff.mp h
      obtain ⟨l, w, rfl, rfl, hl⟩ := ih hj
      refine ⟨c :: l, w, rfl, rfl, fun hin => ?_⟩
      rcases List.infix_cons_iff.mp hin with hstart | hrest
      · exact hp (hstart.trans (List.prefix_append (c :: l) _))
      · exact hl hrest

/-- More behind the first line does not matter. -/
theorem newline_of_append (h : newline s = some k) (w : Str) : newline (s ++ w) = some k := by
  obtain ⟨l, v, rfl, rfl, hl⟩ := exists_line h
  rw [List.append_assoc, List.append_assoc]
  exact newline_append hl (v ++ w)

/-- The numeral of a number is a line. -/
theorem isLine_decimal (z : ℤ) : IsLine (decimal z) := by
  intro hin
  have hmem : '\r' ∈ decimal z := hin.subset (by simp [crlf])
  rcases mem_decimal hmem with hsign | hdigit
  · exact absurd hsign (by decide)
  · exact absurd hdigit (by decide)

/-- `sdsrange`, as the reader drops what it has read. -/
theorem sdsrange_drop (hk : k ≤ s.length) (hs : s.length < 2 ^ 31) :
    sdsrange s (toInt k) (-1) = s.drop k := by
  have hint : ∀ z : ℤ, 0 ≤ z → z < 2 ^ 31 → toInt z = z := fun z h₀ h₁ => by
    rw [toInt, Int.bmod_eq_of_le] <;> omega
  by_cases hnil : s.length = 0
  · rw [sdsrange, if_pos hnil, List.eq_nil_of_length_eq_zero hnil, List.drop_nil]
  rw [sdsrange, if_neg hnil]
  have hlast : max (toInt (s.length + -1)) 0 = (s.length : ℤ) - 1 := by
    rw [hint _ (by omega) (by omega)]
    omega
  simp only [hint k (by omega) (by omega), hint s.length (by omega) (by omega), hlast,
    if_neg (show ¬ (k : ℤ) < 0 by omega), if_pos (show (-1 : ℤ) < 0 by decide)]
  by_cases hend : k = s.length
  · rw [if_pos (if_pos (show (k : ℤ) > s.length - 1 by omega)), hend, List.drop_length]
  · simp only [if_neg (show ¬ (k : ℤ) > s.length - 1 by omega)]
    rw [if_neg (by omega), if_neg (by omega), if_neg (by omega)]
    refine List.take_of_length_le ?_
    rw [List.length_drop]
    omega

end Hiredis

end BackendStudy
