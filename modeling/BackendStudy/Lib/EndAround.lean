import Mathlib.Algebra.BigOperators.Group.List.Basic
import Mathlib.Algebra.Order.Ring.Nat
import Mathlib.Tactic.Ring

/-!
# Sums with an end-around carry

In ones' complement, where the words of a machine go up to `m`, a carry out of the word is added
back at its lower end (`BackendStudy.EndAround.add`). The words are then the residues modulo `m`,
zero being written as `0` and as `m`: a sum of words is the residue of their sum, and is `m` for a
multiple of `m` other than zero (`BackendStudy.EndAround.sum_eq`).

So the words may be added up in a wider register first, and the carries added in the end. For a
sum of at most `m * (m + 2)` it takes two rounds (`BackendStudy.EndAround.fold_fold`). And a word
in which the complement of a sum has been written makes the sum `m`
(`BackendStudy.EndAround.word_add_complement`).
-/

namespace BackendStudy

namespace EndAround

/-- Addition of two words, with the carry added at the lower end. -/
def add (m x y : ℕ) : ℕ := if x + y ≤ m then x + y else x + y - m

/-- **The ones'-complement sum** of words. -/
def sum (m : ℕ) (words : List ℕ) : ℕ := words.foldr (add m) 0

/-- The word that a number comes to: its residue modulo `m`, and `m` in the place of zero but for
the number zero itself. -/
def word (m n : ℕ) : ℕ := if n = 0 then 0 else (n - 1) % m + 1

section

variable {m n k : ℕ}

/-! ### Numbers as words -/

theorem word_zero (m : ℕ) : word m 0 = 0 := if_pos rfl

theorem word_le (hm : 0 < m) (n : ℕ) : word m n ≤ m := by
  have hlt := Nat.mod_lt (n - 1) hm
  rw [word]
  split_ifs <;> omega

/-- A word comes to itself. -/
theorem word_of_le (h : n ≤ m) : word m n = n := by
  rw [word]
  split_ifs with hn
  · exact hn.symm
  · rw [Nat.mod_eq_of_lt (by omega)]
    omega

theorem word_eq_zero_iff : word m n = 0 ↔ n = 0 := by
  rw [word]
  split_ifs with hn <;> simp [hn]

/-- Where a number is not zero, what it comes to stays if `m` is taken away. -/
theorem word_add_self (hn : 0 < n) : word m (n + m) = word m n := by
  rw [word, word, if_neg (by omega), if_neg (by omega), show n + m - 1 = n - 1 + m by omega,
    Nat.add_mod_right]

theorem word_add_mul (hn : 0 < n) (k : ℕ) : word m (n + k * m) = word m n := by
  induction k with
  | zero => rw [Nat.zero_mul, Nat.add_zero]
  | succ k ih =>
    rw [Nat.succ_mul, ← Nat.add_assoc, word_add_self (by omega), ih]

/-- A number is what it comes to, but for a multiple of `m`. -/
theorem exists_eq_word_add (m n : ℕ) : ∃ k, n = word m n + k * m := by
  rw [word]
  split_ifs with hn
  · exact ⟨0, by omega⟩
  · refine ⟨(n - 1) / m, ?_⟩
    have hdiv := Nat.mod_add_div (n - 1) m
    rw [Nat.mul_comm] at hdiv
    omega

/-! ### Sums -/

theorem add_eq {x y : ℕ} (hx : x ≤ m) (hy : y ≤ m) : add m x y = word m (x + y) := by
  rw [add]
  split_ifs with h
  · exact (word_of_le h).symm
  · obtain ⟨z, hz⟩ : ∃ z, x + y = z + m := ⟨x + y - m, by omega⟩
    rw [hz, word_add_self (by omega), word_of_le (by omega)]
    omega

/-- **Words are added like the numbers that come to them.** -/
theorem add_word (hm : 0 < m) (n k : ℕ) : add m (word m n) (word m k) = word m (n + k) := by
  obtain ⟨i, hi⟩ := exists_eq_word_add m n
  obtain ⟨j, hj⟩ := exists_eq_word_add m k
  rw [add_eq (word_le hm n) (word_le hm k)]
  by_cases hpos : 0 < word m n + word m k
  · have hsum : n + k = word m n + word m k + (i + j) * m := by
      rw [Nat.add_mul]
      omega
    rw [hsum, word_add_mul hpos]
  · have hn : n = 0 := (@word_eq_zero_iff m n).mp (by omega)
    have hk : k = 0 := (@word_eq_zero_iff m k).mp (by omega)
    rw [hn, hk, word_zero, Nat.add_zero, word_zero]

/-- **A sum of words** is what the sum of the numbers comes to. -/
theorem sum_eq (hm : 0 < m) {words : List ℕ} (h : ∀ x ∈ words, x ≤ m) :
    sum m words = word m words.sum := by
  induction words with
  | nil => exact (word_zero m).symm
  | cons x words ih =>
    have hrec := ih fun y hy => h y (List.mem_cons_of_mem _ hy)
    have hx := word_of_le (h x List.mem_cons_self)
    calc sum m (x :: words) = add m (word m x) (word m words.sum) := by
          rw [hx, ← hrec]
          rfl
      _ = word m (x :: words).sum := by rw [add_word hm, List.sum_cons]

/-- The order of the words does not matter. -/
theorem sum_perm (hm : 0 < m) {words words' : List ℕ} (h : ∀ x ∈ words, x ≤ m)
    (hperm : words.Perm words') : sum m words = sum m words' := by
  rw [sum_eq hm h, sum_eq hm fun x hx => h x (hperm.mem_iff.mpr hx), hperm.sum_eq]

/-- **The complement of a sum**, added to it, comes to `m`. -/
theorem word_add_complement (hm : 0 < m) (n : ℕ) : word m (n + (m - word m n)) = m := by
  obtain ⟨k, hk⟩ := exists_eq_word_add m n
  have hle := word_le hm n
  have hsum : n + (m - word m n) = m + k * m := by omega
  rw [hsum, word_add_mul hm, word_of_le (le_refl m)]

/-! ### Carries -/

/-- A round of carries leaves what the number comes to. -/
theorem word_carry (m n : ℕ) : word m (n / (m + 1) + n % (m + 1)) = word m n := by
  have hdiv := Nat.div_add_mod n (m + 1)
  generalize n / (m + 1) = q at *
  generalize n % (m + 1) = r at *
  have hsum : n = q + r + q * m := by
    rw [← hdiv]
    ring
  by_cases hpos : 0 < q + r
  · rw [hsum, word_add_mul hpos]
  · have hq0 : q = 0 := by omega
    have hr0 : r = 0 := by omega
    rw [hsum, hq0, hr0, Nat.zero_mul]

/-- A number of at most two words comes to its lower part after one more round. -/
theorem carry_mod (hn : n ≤ 2 * m) : (n + n / (m + 1)) % (m + 1) = word m n := by
  by_cases hle : n ≤ m
  · rw [Nat.div_eq_of_lt (by omega), Nat.add_zero, Nat.mod_eq_of_lt (by omega), word_of_le hle]
  · obtain ⟨z, rfl⟩ : ∃ z, n = z + m := ⟨n - m, by omega⟩
    have hdiv : (z + m) / (m + 1) = 1 := Nat.div_eq_of_lt_le (by omega) (by omega)
    rw [hdiv, word_add_self (by omega), word_of_le (by omega), Nat.add_assoc, Nat.add_mod_right,
      Nat.mod_eq_of_lt (by omega)]

/-- **Two rounds of carries are enough** for a number of two words. -/
theorem fold_fold (hn : n < (m + 1) * (m + 1)) :
    (n / (m + 1) + n % (m + 1) + (n / (m + 1) + n % (m + 1)) / (m + 1)) % (m + 1) = word m n := by
  have hq : n / (m + 1) < m + 1 := Nat.div_lt_of_lt_mul hn
  have hr : n % (m + 1) < m + 1 := Nat.mod_lt n (Nat.succ_pos m)
  rw [carry_mod (by omega), word_carry]

end

end EndAround

end BackendStudy
