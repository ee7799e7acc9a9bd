import BackendStudy.Stack.Model
import BackendStudy.Lib.EndAround

/-!
# The Internet checksum

`in_cksum` adds the words of a buffer up in an `int` and adds the carries in the end. Of a buffer
of at most 65535 bytes this is the complement of the ones'-complement sum of the words
(`BackendStudy.Stack.inCksum_ok`), and a buffer in which its own checksum has been written in the
place of a zero word has the checksum zero (`BackendStudy.Stack.inCksum_internet`).
-/

namespace BackendStudy

namespace Stack

open Wire

/-- The words of a buffer, the lower byte first, and an odd byte with a zero behind it. -/
def leWords : List UInt8 → List ℕ
  | lo :: hi :: w => (lo.toNat + 256 * hi.toNat) :: leWords w
  | [lo] => [lo.toNat]
  | [] => []

/-- **The checksum of the buffer is valid**: with it, the words have the sum that stands for
zero. -/
def ValidCksum (bytes : List UInt8) : Prop := EndAround.sum 65535 (leWords bytes) = 65535

instance (bytes : List UInt8) : Decidable (ValidCksum bytes) :=
  inferInstanceAs (Decidable (_ = _))

/-- The bytes of a word as the host has them. -/
def leBytes (v : UInt16) : List UInt8 := [v.toUInt8, (v >>> 8).toUInt8]

section

variable {bytes w A B : List UInt8} {sum : ℕ} {i : ℕ}

/-! ### Words -/

theorem leWords_le (bytes : List UInt8) : ∀ x ∈ leWords bytes, x ≤ 65535 := by
  fun_induction leWords bytes with
  | case1 lo hi w ih =>
    have hlo := lo.toNat_lt
    have hhi := hi.toNat_lt
    rintro x (_ | ⟨_, hx⟩)
    · omega
    · exact ih x hx
  | case2 lo =>
    have hlo := lo.toNat_lt
    intro x hx
    rw [List.mem_singleton.mp hx]
    omega
  | case3 => exact fun x hx => absurd hx List.not_mem_nil

/-- The words of a buffer of at most 65535 bytes fit into an `int`. -/
theorem sum_leWords_le (bytes : List UInt8) :
    (leWords bytes).sum ≤ 65535 * (bytes.length / 2) + 255 * (bytes.length % 2) := by
  fun_induction leWords bytes with
  | case1 lo hi w ih =>
    have hlo := lo.toNat_lt
    have hhi := hi.toNat_lt
    rw [List.sum_cons, List.length_cons, List.length_cons]
    omega
  | case2 lo =>
    have hlo := lo.toNat_lt
    simp only [List.sum_singleton, List.length_singleton]
    omega
  | case3 => exact Nat.zero_le _

/-- Behind an even number of bytes the words go on. -/
theorem leWords_append (h : A.length % 2 = 0) : leWords (A ++ B) = leWords A ++ leWords B := by
  fun_induction leWords A with
  | case1 lo hi w ih =>
    rw [List.length_cons, List.length_cons] at h
    rw [List.cons_append, List.cons_append, leWords, ih (by omega)]
    rfl
  | case2 lo => simp at h
  | case3 => rfl

theorem leWords_leBytes (v : UInt16) : leWords (leBytes v) = [v.toNat] := by
  have hlt := v.toNat_lt
  have hshift : (v >>> 8).toNat = v.toNat / 256 := by
    rw [UInt16.toNat_shiftRight]
    exact Nat.shiftRight_eq_div_pow _ _
  rw [leBytes, leWords, leWords, UInt16.toNat_toUInt8, UInt16.toNat_toUInt8, hshift]
  congr 1
  omega

/-! ### The sum -/

/-- The loop adds the words up. -/
theorem sumWords_eq (h : sum + (leWords w).sum < 2 ^ 31) :
    sumWords w sum = .ok (sum + (leWords w).sum) := by
  fun_induction sumWords w sum with
  | case1 lo hi w sum ih =>
    rw [leWords, List.sum_cons] at h ⊢
    rw [addInt, if_pos (by omega), Slots.ok_bind, ih _ (by omega)]
    congr 1
    omega
  | case2 lo sum =>
    rw [leWords, List.sum_singleton] at h ⊢
    rw [addInt, if_pos h]
  | case3 sum => rfl

/-- **`in_cksum`** of a buffer of at most 65535 bytes: no sum overflows, and the result is the
complement of the ones'-complement sum. -/
theorem inCksum_ok (h : bytes.length ≤ 65535) :
    inCksum bytes = .ok (~~~UInt16.ofNat (EndAround.sum 65535 (leWords bytes))) := by
  have hle := sum_leWords_le bytes
  set n := (leWords bytes).sum with hn
  have hlt : n < 2 ^ 31 := by omega
  rw [inCksum, sumWords_eq (by omega), Slots.ok_bind, Nat.zero_add, ← hn]
  have hfold : (n / 65536 + n % 65536 + (n / 65536 + n % 65536) / 65536) % 65536 =
      EndAround.word 65535 n := EndAround.fold_fold (by omega)
  have hmask : n &&& 0xffff = n % 65536 := Nat.and_two_pow_sub_one_eq_mod n 16
  have hshift : ∀ k : ℕ, k >>> 16 = k / 65536 := fun k => Nat.shiftRight_eq_div_pow k 16
  rw [EndAround.sum_eq (by decide) (leWords_le bytes), ← hn]
  simp only [hmask, hshift]
  congr 2
  apply UInt16.toNat_inj.mp
  rw [UInt16.toNat_ofNat', UInt16.toNat_ofNat', ← hfold, Nat.mod_mod]

/-- The complement of a word. -/
theorem toNat_complement (h : sum ≤ 65535) : (~~~UInt16.ofNat sum).toNat = 65535 - sum := by
  rw [UInt16.toNat_not, UInt16.toNat_ofNat', Nat.mod_eq_of_lt (by omega)]
  rfl

theorem validCksum_iff (h : bytes.length ≤ 65535) : ValidCksum bytes ↔ inCksum bytes = .ok 0 := by
  have hle : EndAround.sum 65535 (leWords bytes) ≤ 65535 := by
    rw [EndAround.sum_eq (by decide) (leWords_le bytes)]
    exact EndAround.word_le (by decide) _
  have hzero := toNat_complement hle
  rw [inCksum_ok h, ValidCksum, Except.ok.injEq, ← UInt16.toNat_inj, hzero]
  change _ ↔ 65535 - _ = 0
  omega

/-- **Fields of whole words may change places.** -/
theorem validCksum_swap {C : List UInt8} (hA : A.length % 2 = 0) (hB : B.length % 2 = 0)
    (hC : C.length % 2 = 0) (h : ValidCksum (A ++ (B ++ C))) : ValidCksum (A ++ (C ++ B)) := by
  have hperm : (leWords (A ++ (B ++ C))).Perm (leWords (A ++ (C ++ B))) := by
    rw [leWords_append hA, leWords_append hB, leWords_append hA, leWords_append hC]
    exact List.perm_append_comm.append_left _
  rw [ValidCksum, ← EndAround.sum_perm (by decide) (leWords_le _) hperm]
  exact h

/-- Bytes behind an even number of others and in front of others. -/
theorem sum_leWords_field (hA : A.length % 2 = 0) (v : UInt16) :
    (leWords (A ++ (leBytes v ++ B))).sum = (leWords (A ++ ([0, 0] ++ B))).sum + v.toNat := by
  have hfield : (leBytes v).length = 2 := rfl
  rw [leWords_append hA, leWords_append (by rw [hfield]), leWords_leBytes, leWords_append hA,
    @leWords_append [0, 0] B rfl]
  simp only [leWords, List.sum_append, List.sum_cons, List.sum_nil, UInt8.toNat_zero]
  omega

/-- **A buffer with its own checksum** in the place of a zero word is valid. -/
theorem validCksum_field (hA : A.length % 2 = 0) {v : UInt16}
    (hv : inCksum (A ++ ([0, 0] ++ B)) = .ok v) (hlen : (A ++ ([0, 0] ++ B)).length ≤ 65535) :
    ValidCksum (A ++ (leBytes v ++ B)) := by
  rw [inCksum_ok hlen, Except.ok.injEq] at hv
  have hsum := EndAround.sum_eq (m := 65535) (by decide) (leWords_le (A ++ ([0, 0] ++ B)))
  have hword : v.toNat =
      65535 - EndAround.word 65535 (leWords (A ++ ([0, 0] ++ B))).sum := by
    rw [← hv, hsum]
    exact toNat_complement (EndAround.word_le (by decide) _)
  rw [ValidCksum, EndAround.sum_eq (by decide) (leWords_le _), sum_leWords_field hA, hword]
  exact EndAround.word_add_complement (by decide) _

/-- **`in_cksum` is the Internet checksum** of a buffer of at most 65535 bytes: no sum overflows,
the result is the complement of the ones'-complement sum of the words, and where it is written
in the place of a zero word, the checksum of the whole buffer is zero. -/
theorem inCksum_internet (h : bytes.length ≤ 65535) :
    inCksum bytes = .ok (~~~UInt16.ofNat (EndAround.sum 65535 (leWords bytes))) ∧
      ∀ i v, At bytes (2 * i) [0, 0] → inCksum bytes = .ok v →
        inCksum (patch bytes (2 * i) (leBytes v)) = .ok 0 := by
  refine ⟨inCksum_ok h, fun i v hzero hv => ?_⟩
  obtain ⟨A, B, hA, rfl, hpatch⟩ := hzero.exists_field (by nofun)
  have hfield : (leBytes v).length = 2 := rfl
  rw [hpatch (leBytes v) hfield]
  refine (validCksum_iff ?_).mp (validCksum_field (by omega) hv h)
  rw [List.length_append, List.length_append] at h ⊢
  rw [hfield]
  exact h

/-- The header of an echo request. -/
theorem inCksum_internet_sample :
    inCksum (patch [8, 0, 0, 0, 0, 1, 0, 1] 2 (leBytes 0xfdf7)) = .ok 0 :=
  (inCksum_internet (show [8, 0, 0, 0, 0, 1, 0, 1].length ≤ 65535 by decide)).2 1 0xfdf7
    (by decide) rfl

end

end Stack

end BackendStudy
