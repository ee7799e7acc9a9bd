import BackendStudy.Lib.Slots
import Mathlib.Data.List.Infix

/-!
# Bytes of a packet

Reading a packet by position: single bytes, words of two bytes with the higher one first, and
stretches of bytes, each an error outside of the packet (`BackendStudy.Wire.byte`,
`BackendStudy.Wire.be16`, `BackendStudy.Wire.slice`), strings up to their zero
(`BackendStudy.Wire.text`), and writing (`BackendStudy.Wire.store`). What stands at a position
(`BackendStudy.Wire.At`) is a sequence of fields one behind the other
(`BackendStudy.Wire.at_append`), and reading gives the fields.
-/

namespace BackendStudy

namespace Wire

open Slots

universe v

variable {ε : Type v}

/-- The byte at a position, as a number. -/
def byte (e : ε) (a : List UInt8) (i : ℕ) : Except ε ℕ :=
  match a[i]? with
  | some b => .ok b.toNat
  | none => .error e

/-- The word at a position, the higher byte first. -/
def be16 (e : ε) (a : List UInt8) (i : ℕ) : Except ε ℕ :=
  match byte e a i, byte e a (i + 1) with
  | .ok hi, .ok lo => .ok (hi * 256 + lo)
  | _, _ => .error e

/-- The `n` bytes from a position on. -/
def slice (e : ε) (a : List UInt8) (i n : ℕ) : Except ε (List UInt8) :=
  if i + n ≤ a.length then .ok ((a.drop i).take n) else .error e

/-- The string at a position: the bytes in front of the next zero. -/
def text (e : ε) (a : List UInt8) (i : ℕ) : Except ε (List UInt8) :=
  if 0 ∈ a.drop i then .ok ((a.drop i).takeWhile (· ≠ 0)) else .error e

/-- Writing a byte at a position. -/
def store (e : ε) (a : List UInt8) (i : ℕ) (b : UInt8) : Except ε (List UInt8) :=
  if i < a.length then .ok (a.set i b) else .error e

/-- The bytes with others in the place of those from a position on. -/
def patch (a : List UInt8) (i : ℕ) (bs : List UInt8) : List UInt8 :=
  a.take i ++ bs ++ a.drop (i + bs.length)

/-- The number `v` stands at a position, in one byte. -/
def Byte (a : List UInt8) (i v : ℕ) : Prop := ∃ b, a[i]? = some b ∧ b.toNat = v

/-- The word `v` stands at a position. -/
def Word (a : List UInt8) (i v : ℕ) : Prop :=
  ∃ hi lo, a[i]? = some hi ∧ a[i + 1]? = some lo ∧ v = hi.toNat * 256 + lo.toNat

/-- **The bytes at a position.** -/
def At (a : List UInt8) (i : ℕ) (bs : List UInt8) : Prop := bs <+: a.drop i

instance (a : List UInt8) (i : ℕ) (bs : List UInt8) : Decidable (At a i bs) :=
  inferInstanceAs (Decidable (bs <+: a.drop i))

/-- The bytes of a word. -/
def wordBytes (v : ℕ) : List UInt8 := [UInt8.ofNat (v / 256), UInt8.ofNat v]

section

variable {e e₀ : ε} {a bs cs : List UInt8} {b : UInt8} {i n v : ℕ}

/-! ### Reading -/

theorem byte_eq_ok_iff : byte e a i = .ok v ↔ Byte a i v := by
  unfold byte Byte
  cases a[i]? with
  | none => simp
  | some b => simp

theorem be16_eq_ok_iff : be16 e a i = .ok v ↔ Word a i v := by
  unfold be16 byte Word
  cases a[i]? with
  | none => simp
  | some hi =>
    cases a[i + 1]? with
    | none => simp
    | some lo => simp [eq_comm]

theorem be16_ne_error (hne : e ≠ e₀) : be16 e a i ≠ .error e₀ := by
  unfold be16
  split
  · simp
  · simpa using hne

theorem slice_eq_ok_iff : slice e a i n = .ok bs ↔ i + n ≤ a.length ∧ bs = (a.drop i).take n := by
  unfold slice
  split_ifs with h
  · simp [h, eq_comm]
  · simp [h]

theorem slice_length (h : slice e a i n = .ok bs) : bs.length = n := by
  obtain ⟨hle, rfl⟩ := slice_eq_ok_iff.mp h
  rw [List.length_take, List.length_drop]
  omega

/-- A field that is in the buffer can be read. -/
theorem exists_slice (e : ε) (h : i + n ≤ a.length) :
    ∃ bs, slice e a i n = .ok bs ∧ bs.length = n ∧ At a i bs := by
  have hslice := slice_eq_ok_iff (e := e).mpr ⟨h, rfl⟩
  exact ⟨_, hslice, slice_length hslice, List.take_prefix _ _⟩

theorem exists_byte (h : i < a.length) : ∃ v, Byte a i v :=
  ⟨_, _, List.getElem?_eq_getElem h, rfl⟩

theorem exists_word (h : i + 1 < a.length) : ∃ v, Word a i v :=
  ⟨_, _, _, List.getElem?_eq_getElem (by omega), List.getElem?_eq_getElem h, rfl⟩

theorem Byte.unique {w : ℕ} (h : Byte a i v) (h' : Byte a i w) : v = w := by
  obtain ⟨b, hb, rfl⟩ := h
  obtain ⟨b', hb', rfl⟩ := h'
  rw [Option.some.inj (hb.symm.trans hb')]

theorem Word.lt (h : Word a i v) : v < 65536 := by
  obtain ⟨hi, lo, -, -, rfl⟩ := h
  have hhi := hi.toNat_lt
  have hlo := lo.toNat_lt
  omega

theorem Word.unique {w : ℕ} (h : Word a i v) (h' : Word a i w) : v = w := by
  obtain ⟨hi, lo, hhi, hlo, rfl⟩ := h
  obtain ⟨hi', lo', hhi', hlo', rfl⟩ := h'
  obtain rfl := Option.some.inj (hhi.symm.trans hhi')
  obtain rfl := Option.some.inj (hlo.symm.trans hlo')
  rfl

/-! ### Fields -/

theorem at_append : At a i (bs ++ cs) ↔ At a i bs ∧ At a (i + bs.length) cs := by
  rw [At, At, At, ← List.drop_drop]
  constructor
  · intro h
    obtain ⟨t, ht⟩ := h
    rw [← ht]
    exact ⟨⟨cs ++ t, by simp⟩, ⟨t, by simp⟩⟩
  · rintro ⟨⟨t, ht⟩, ⟨u, hu⟩⟩
    rw [← ht, List.drop_left] at hu
    exact ⟨u, by rw [← ht, ← hu, List.append_assoc]⟩

theorem at_cons : At a i (b :: cs) ↔ a[i]? = some b ∧ At a (i + 1) cs := by
  have hsplit := @at_append a [b] cs i
  rw [List.singleton_append, List.length_singleton] at hsplit
  rw [hsplit]
  refine and_congr_left fun _ => ?_
  rw [At, List.cons_prefix_iff]
  constructor
  · rintro ⟨l, hl, -⟩
    have hget := congrArg (·[0]?) hl
    simp only [List.getElem?_drop, Nat.add_zero] at hget
    simpa using hget
  · intro h
    obtain ⟨hi, rfl⟩ := List.getElem?_eq_some_iff.mp h
    exact ⟨_, List.drop_eq_getElem_cons hi, List.nil_prefix⟩

theorem At.slice_eq (h : At a i bs) (hne : bs ≠ []) : slice e a i bs.length = .ok bs := by
  obtain ⟨t, ht⟩ := h
  have hlen := congrArg List.length ht
  simp only [List.length_append, List.length_drop] at hlen
  have hpos := List.length_pos_iff.mpr hne
  exact slice_eq_ok_iff.mpr ⟨by omega, by rw [← ht, List.take_left]⟩

theorem At.be16_eq (h : At a i (wordBytes v)) (hv : v < 65536) : be16 e a i = .ok v := by
  obtain ⟨hhi, hlo⟩ := at_cons.mp h
  refine be16_eq_ok_iff.mpr ⟨_, _, hhi, (at_cons.mp hlo).1, ?_⟩
  simp only [UInt8.toNat_ofNat']
  omega

/-! ### Writing -/

/-- Writing behind the bytes in front. -/
theorem patch_append {A B : List UInt8} (h : A.length ≤ i) :
    patch (A ++ B) i bs = A ++ patch B (i - A.length) bs := by
  rw [patch, patch, List.take_append, List.drop_append, List.take_of_length_le h,
    List.drop_of_length_le (by omega), List.nil_append, List.append_assoc, List.append_assoc,
    List.append_assoc, show i + bs.length - A.length = i - A.length + bs.length by omega]

/-- Writing in the place of the first bytes. -/
theorem patch_zero {A B : List UInt8} (h : A.length = bs.length) :
    patch (A ++ B) 0 bs = bs ++ B := by
  rw [patch, List.take_zero, List.nil_append, Nat.zero_add, ← h, List.drop_left]

theorem patch_nil (a : List UInt8) (i : ℕ) : patch a i [] = a := by
  rw [patch, List.append_nil, List.length_nil, Nat.add_zero, List.take_append_drop]

/-- The bytes are written one after the other. -/
theorem patch_cons (h : i < a.length) : patch a i (b :: bs) = patch (a.set i b) (i + 1) bs := by
  have hfront : (a.take i ++ [b]).length = i + 1 := by
    rw [List.length_append, List.length_take_of_le h.le, List.length_singleton]
  have hset : a.set i b = a.take i ++ [b] ++ a.drop (i + 1) := by
    rw [List.set_eq_take_append_cons_drop, if_pos h, List.append_assoc, List.singleton_append]
  have hdrop : (a.set i b).drop (i + 1 + bs.length) = a.drop (i + (b :: bs).length) := by
    rw [hset, ← List.drop_drop, List.drop_left' hfront, List.drop_drop, List.length_cons,
      show i + (bs.length + 1) = i + 1 + bs.length by omega]
  rw [patch, patch, hdrop, hset, List.take_left' hfront, List.append_assoc (a.take i) [b] bs,
    List.singleton_append]

/-- A field, what stands in front of it and behind it, and other bytes in its place. -/
theorem At.exists_field (h : At a i bs) (hne : bs ≠ []) :
    ∃ A B, A.length = i ∧ a = A ++ (bs ++ B) ∧
      ∀ cs : List UInt8, cs.length = bs.length → patch a i cs = A ++ (cs ++ B) := by
  obtain ⟨B, hB⟩ := h
  have hlen := congrArg List.length hB
  rw [List.length_append, List.length_drop] at hlen
  have hpos := List.length_pos_iff.mpr hne
  have hA : (a.take i).length = i := by
    rw [List.length_take]
    omega
  have ha : a = a.take i ++ (bs ++ B) := by rw [hB, List.take_append_drop]
  refine ⟨a.take i, B, hA, ha, fun cs hcs => ?_⟩
  have hpatch := @patch_append cs i (a.take i) (bs ++ B) hA.le
  rw [← ha, hA, Nat.sub_self, patch_zero hcs.symm] at hpatch
  exact hpatch

end

end Wire

end BackendStudy
