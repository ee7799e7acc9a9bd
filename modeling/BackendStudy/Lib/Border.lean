import Mathlib.Data.List.Infix
import Mathlib.Order.Bounds.Basic
import Mathlib.Tactic.Common

/-!
# Borders of lists

A border of a list is a proper prefix of it that is a suffix as well, given by its length
(`BackendStudy.Border.IsBorder`). A search for a pattern reads a text from left to right and
follows the prefixes of the pattern that the text read so far ends with
(`BackendStudy.Border.Ends`); of these it keeps the longest.

The shorter ones are borders of the longest (`BackendStudy.Border.Ends.iff_border`). So when the
next element of the text does not go on with a prefix, the next one to try is the longest border
of that prefix, and nothing in between is missed: this is one step of the search
(`BackendStudy.Border.Leads`), which hits (`BackendStudy.Border.Leads.hit`), falls back
(`BackendStudy.Border.Leads.fall`) or ends without a prefix (`BackendStudy.Border.Leads.miss`).
The borders of a list are what this search finds of the list in its own tail
(`BackendStudy.Border.border_take_succ`).
-/

namespace BackendStudy

namespace Border

variable {α : Type*} {P W : List α} {c : α} {b i j k n : ℕ}

/-- **The first `k` elements of `P` are the last ones of `W`.** -/
def Ends (P W : List α) (k : ℕ) : Prop := k ≤ P.length ∧ P.take k <:+ W

/-- **A border** of a list, by its length. -/
def IsBorder (s : List α) (k : ℕ) : Prop := k < s.length ∧ s.take k <:+ s

/-- **A prefix that leads on to `c`**: the text read so far ends with it, and the text with `c`
ends with no prefix that is longer than this one by more than one element. -/
def Leads (P W : List α) (c : α) (k : ℕ) : Prop :=
  Ends P W k ∧ ∀ j, Ends P (W ++ [c]) (j + 1) → j ≤ k

theorem ends_zero : Ends P W 0 := ⟨Nat.zero_le _, by simp⟩

theorem Ends.le_length (h : Ends P W k) : k ≤ W.length := by
  have hle := h.2.length_le
  rwa [List.length_take, Nat.min_eq_left h.1] at hle

theorem take_succ_eq (h : P[k]? = some c) : P.take (k + 1) = P.take k ++ [c] := by
  rw [List.take_add_one, h]
  rfl

/-- **One more element** is one more element of the prefix. -/
theorem ends_concat : Ends P (W ++ [c]) (k + 1) ↔ Ends P W k ∧ P[k]? = some c := by
  constructor
  · rintro ⟨hk, t, ht⟩
    have hget : P[k]? = some P[k] := List.getElem?_eq_getElem hk
    rw [take_succ_eq hget, ← List.append_assoc] at ht
    obtain ⟨hW, hc⟩ := List.append_inj' ht rfl
    obtain rfl : P[k] = c := by simpa using hc
    exact ⟨⟨Nat.le_of_succ_le hk, t, hW⟩, hget⟩
  · rintro ⟨⟨-, t, ht⟩, hc⟩
    refine ⟨(List.getElem?_eq_some_iff.mp hc).1, t, ?_⟩
    rw [take_succ_eq hc, ← List.append_assoc, ht]

/-- **The shorter prefixes** that a text ends with are the borders of the longer one. -/
theorem Ends.iff_border (h : Ends P W k) (hj : j < k) : Ends P W j ↔ IsBorder (P.take k) j := by
  have htake : (P.take k).take j = P.take j := by rw [List.take_take, Nat.min_eq_left hj.le]
  have hlen : (P.take k).length = k := by rw [List.length_take, Nat.min_eq_left h.1]
  constructor
  · intro hjW
    refine ⟨hlen.symm ▸ hj, ?_⟩
    rw [htake]
    refine List.suffix_of_suffix_length_le hjW.2 h.2 ?_
    rw [List.length_take, List.length_take]
    omega
  · rintro ⟨-, hsuffix⟩
    rw [htake] at hsuffix
    exact ⟨hj.le.trans h.1, hsuffix.trans h.2⟩

/-- **The borders** are the prefixes of a list that end its tail. -/
theorem border_take_succ (hn : n < P.length) :
    IsBorder (P.take (n + 1)) k ↔ Ends P (P.tail.take n) k := by
  have hlen : (P.take (n + 1)).length = n + 1 := by
    rw [List.length_take]
    omega
  rcases P with _ | ⟨a, P⟩
  · exact absurd hn (by simp)
  rw [List.take_succ_cons] at hlen
  rw [List.tail_cons, List.take_succ_cons]
  constructor
  · rintro ⟨hk, hsuffix⟩
    rw [hlen] at hk
    have htake : (a :: P.take n).take k = (a :: P).take k := by
      rw [← List.take_succ_cons, List.take_take, Nat.min_eq_left hk.le]
    rw [htake] at hsuffix
    refine ⟨by omega, ?_⟩
    rcases List.suffix_cons_iff.mp hsuffix with he | hsuffix
    · have := congrArg List.length he
      rw [hlen, List.length_take] at this
      omega
    · exact hsuffix
  · rintro ⟨hk, hsuffix⟩
    have hle := hsuffix.length_le
    rw [List.length_take, List.length_take, Nat.min_eq_left hk] at hle
    have htake : (a :: P.take n).take k = (a :: P).take k := by
      rw [← List.take_succ_cons, List.take_take, Nat.min_eq_left (by omega)]
    refine ⟨by omega, ?_⟩
    rw [htake]
    exact hsuffix.trans (List.suffix_cons a _)

/-! ### One step of a search -/

theorem leads_of_longest (h : IsGreatest {k | Ends P W k} k) : Leads P W c k :=
  ⟨h.1, fun _ hj => h.2 (ends_concat.mp hj).1⟩

/-- The element goes on with the prefix. -/
theorem Leads.hit (h : Leads P W c k) (hc : P[k]? = some c) :
    IsGreatest {k | Ends P (W ++ [c]) k} (k + 1) := by
  refine ⟨ends_concat.mpr ⟨h.1, hc⟩, fun j hj => ?_⟩
  rcases j with _ | j
  · exact Nat.zero_le _
  · exact Nat.succ_le_succ (h.2 j hj)

/-- It does not, and no prefix is left. -/
theorem Leads.miss (h : Leads P W c 0) (hc : P[0]? ≠ some c) :
    IsGreatest {k | Ends P (W ++ [c]) k} 0 := by
  refine ⟨ends_zero, fun j hj => ?_⟩
  rcases j with _ | j
  · exact le_refl 0
  · obtain rfl : j = 0 := Nat.le_zero.mp (h.2 j hj)
    exact absurd (ends_concat.mp hj).2 hc

/-- **It does not, and the longest border is the next one to try.** -/
theorem Leads.fall (h : Leads P W c k) (hc : P[k]? ≠ some c)
    (hb : IsGreatest {j | IsBorder (P.take k) j} b) : Leads P W c b := by
  have hbk : b < k := by
    have hlt := hb.1.1
    rw [List.length_take] at hlt
    omega
  refine ⟨(h.1.iff_border hbk).mpr hb.1, fun j hj => ?_⟩
  obtain ⟨hjW, hjc⟩ := ends_concat.mp hj
  have hne : j ≠ k := by
    rintro rfl
    exact hc hjc
  exact hb.2 ((h.1.iff_border (lt_of_le_of_ne (h.2 j hj) hne)).mp hjW)

end Border

end BackendStudy
