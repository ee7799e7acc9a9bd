import Mathlib.Data.List.Nodup

/-!
# Streams that are passed on

A stream of bytes in which each byte carries its number (`BackendStudy.Streams.Numbered`): so
bytes are told apart that have the same value, and a list of bytes is a beginning of the stream
only if nothing has been left out of it and nothing is in it twice.

Where a part of a stream is passed on, the rest of it being at hand, what is passed on next goes on
with it exactly if nothing lies between the two (`BackendStudy.Streams.append_prefix_iff`).
-/

namespace BackendStudy

namespace Streams

variable {α : Type*}

/-- **A numbered stream.** -/
def Numbered (l : List (α × ℕ)) : Prop := l.map Prod.snd = List.range l.length

theorem numbered_nil : Numbered ([] : List (α × ℕ)) := rfl

/-- What comes next is numbered on. -/
theorem Numbered.append {l : List (α × ℕ)} (h : Numbered l) (bs : List α) :
    Numbered (l ++ bs.zipIdx l.length) := by
  rw [Numbered, List.map_append, h, List.zipIdx_map_snd, List.length_append, List.length_zipIdx,
    List.range_eq_range', List.range_eq_range']
  have happend := List.range'_append_1 (s := 0) (m := l.length) (n := bs.length)
  rwa [Nat.zero_add] at happend

/-- No byte of a numbered stream is in it twice. -/
theorem Numbered.nodup {l : List (α × ℕ)} (h : Numbered l) : l.Nodup :=
  List.Nodup.of_map Prod.snd (h ▸ List.nodup_range)

/-- **What is passed on next** from a stream without repetitions goes on with what has been passed
on exactly if nothing is left between them. -/
theorem append_prefix_iff {before rest passed next : List α} (hnodup : (before ++ rest).Nodup)
    (hpassed : passed <+: before ++ rest) (hle : passed.length ≤ before.length)
    (hnext : next <+: rest) :
    passed ++ next <+: before ++ rest ↔ (next ≠ [] → passed.length = before.length) := by
  obtain ⟨d, rfl⟩ : passed <+: before :=
    List.prefix_of_prefix_length_le hpassed (List.prefix_append _ _) hle
  obtain ⟨u, rfl⟩ := hnext
  rw [List.append_assoc, List.prefix_append_right_inj, List.length_append]
  constructor
  · intro hgo hne
    cases d with
    | nil => rfl
    | cons a d =>
      cases next with
      | nil => exact absurd rfl hne
      | cons b next =>
        -- the byte would be in what has been left out as well
        obtain ⟨v, hv⟩ := hgo
        obtain rfl := (List.cons.inj hv).1
        have hapart := (List.nodup_append.mp hnodup).2.2 b (by simp) b (by simp)
        exact absurd rfl hapart
  · intro hleft
    by_cases hne : next = []
    · rw [hne]
      exact List.nil_prefix
    · have hd : d = [] := List.eq_nil_of_length_eq_zero (by have := hleft hne; omega)
      rw [hd]
      exact List.prefix_append _ _

end Streams

end BackendStudy
