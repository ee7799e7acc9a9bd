import BackendStudy.Dns.Name
import BackendStudy.Lib.Walk
import Mathlib.Data.List.GetD

/-!
# Whether the decoding of a name ends

The cursor of `dns_parse_name` goes forward over labels and to any of the first 256 positions
along a pointer (`BackendStudy.Dns.cursor`), and nothing keeps count of where it has been. It has
finitely many positions to go to, so it comes to a zero, where the function returns, or it comes
round to a position again, and then it goes round for ever
(`BackendStudy.Dns.nameReturns_iff`).

What is read behind the message buffer is zero here, and the buffer for the name is as large as
the name needs (`BackendStudy.Dns.NameReturns`).
-/

namespace BackendStudy

namespace Dns

open Wire Fuel Filter Chain Walk

/-- **Where the cursor goes from a position**: behind the label, or to where the pointer leads, and
nowhere from a zero. Behind the buffer there are zeros. -/
def cursor (buffer : List UInt8) (p : ℕ) : Option ℕ :=
  if buffer.getD p 0 = 0 then none
  else if isPointer (buffer.getD p 0).toNat then some (buffer.getD (p + 1) 0).toNat
  else some (p + 1 + (buffer.getD p 0).toNat)

/-- **The call of `dns_parse_name` at a position returns**, given enough zeros behind the message
buffer, enough room for the name and enough turns. -/
def NameReturns (buffer : List UInt8) (p : ℕ) : Prop :=
  ∀ᶠ k in atTop, ∀ᶠ r in atTop, ∀ᶠ n in atTop, ∃ x,
    parseName (buffer ++ List.replicate k 0) n p 0 (List.replicate r 0, 0) = .ok x

section

variable {buffer s : List UInt8} {p q k : ℕ} {b : UInt8}

/-! ### The cursor -/

theorem getD_of_getElem? (h : (buffer ++ List.replicate k 0)[p]? = some b) :
    buffer.getD p 0 = b := by
  rcases Nat.lt_or_ge p buffer.length with hlt | hge
  · rw [List.getElem?_append_left hlt] at h
    simp [h]
  · rw [List.getElem?_append_right hge, List.getElem?_replicate] at h
    rw [List.getD_eq_default _ _ hge]
    split_ifs at h
    exact Option.some.inj h

theorem getElem?_extend (h : p < buffer.length + k) :
    (buffer ++ List.replicate k 0)[p]? = some (buffer.getD p 0) := by
  rcases Nat.lt_or_ge p buffer.length with hlt | hge
  · rw [List.getElem?_append_left hlt, List.getElem?_eq_getElem hlt, List.getD_eq_getElem _ _ hlt]
  · rw [List.getElem?_append_right hge, List.getElem?_replicate, List.getD_eq_default _ _ hge,
      if_pos (by omega)]

theorem cursor_zero (h : buffer.getD p 0 = 0) : cursor buffer p = none := if_pos h

theorem cursor_jump (hptr : isPointer (buffer.getD p 0).toNat = true) :
    cursor buffer p = some (buffer.getD (p + 1) 0).toNat := by
  have hne : ¬buffer.getD p 0 = 0 := by
    intro h
    rw [h] at hptr
    exact absurd hptr (by decide)
  rw [cursor, if_neg hne, if_pos hptr]

theorem cursor_piece (hne : buffer.getD p 0 ≠ 0)
    (hptr : isPointer (buffer.getD p 0).toNat = false) :
    cursor buffer p = some (p + 1 + (buffer.getD p 0).toNat) := by
  rw [cursor, if_neg hne, hptr]
  rfl

/-- **Where the cursor can be**: it goes on from positions in the buffer only, and not far behind
the end. -/
theorem cursor_lt (h : cursor buffer p = some q) : p < buffer.length ∧ q < buffer.length + 256 := by
  have hp : p < buffer.length := by
    by_contra hge
    rw [cursor_zero (List.getD_eq_default _ _ (by omega))] at h
    exact absurd h (by simp)
  refine ⟨hp, ?_⟩
  unfold cursor at h
  split_ifs at h with hzero hptr
  · obtain rfl := Option.some.inj h
    have := (buffer.getD (p + 1) 0).toNat_lt
    omega
  · obtain rfl := Option.some.inj h
    have := (buffer.getD p 0).toNat_lt
    omega

/-! ### What the cursor meets -/

/-- Where the bytes read as a text, the cursor comes to an end. -/
theorem Reads.ends (h : Reads (buffer ++ List.replicate k 0) p s) : Ends (cursor buffer) p := by
  induction h with
  | @zero p hb => exact ⟨[p], rfl, cursor_zero (getD_of_getElem? hb)⟩
  | @jump p b n s hb hptr hn _ ih =>
    obtain ⟨l, hl⟩ := ih
    refine ⟨p :: l, rfl, ?_⟩
    rw [← getD_of_getElem? hb] at hptr
    rwa [cursor_jump hptr, getD_of_getElem? hn]
  | @piece p b next l s hb hne hptr _ _ _ _ ih =>
    obtain ⟨l', hl'⟩ := ih
    refine ⟨p :: l', rfl, ?_⟩
    rw [← getD_of_getElem? hb] at hne hptr
    rwa [cursor_piece hne hptr, getD_of_getElem? hb]

/-- Where the cursor comes to an end, the bytes read as a text. -/
theorem exists_reads {l : List ℕ} (h : Path (cursor buffer) (some p) l none) (hk : 256 ≤ k)
    (hp : p < buffer.length + k) : ∃ s, Reads (buffer ++ List.replicate k 0) p s := by
  induction l generalizing p with
  | nil => exact absurd h (by simp)
  | cons a l ih =>
    obtain ⟨ha, hl⟩ := h
    obtain rfl := Option.some.inj ha
    have hb := getElem?_extend hp
    by_cases hzero : buffer.getD p 0 = 0
    · rw [hzero] at hb
      exact ⟨[], .zero hb⟩
    cases hq : cursor buffer p with
    | none =>
      unfold cursor at hq
      split_ifs at hq
    | some q =>
      obtain ⟨hlt, hqlt⟩ := cursor_lt hq
      rw [hq] at hl
      obtain ⟨s, hs⟩ := ih hl (by omega)
      rcases hptr : isPointer (buffer.getD p 0).toNat with _ | _
      · -- a label, which may end behind the buffer
        rw [cursor_piece hzero hptr] at hq
        obtain rfl := Option.some.inj hq
        refine ⟨_, .piece hb hzero hptr (List.take_prefix (buffer.getD p 0).toNat _) ?_
          (getElem?_extend (by omega)) hs⟩
        simp only [List.length_take, List.length_drop, List.length_append, List.length_replicate]
        omega
      · rw [cursor_jump hptr] at hq
        obtain rfl := Option.some.inj hq
        exact ⟨s, .jump hb hptr (getElem?_extend (by omega)) hs⟩

/-- **The decoding of a name ends if and only if its cursor does not go round**, for every content
of the message buffer and every position. -/
theorem nameReturns_iff : NameReturns buffer p ↔ ¬Circles (cursor buffer) p := by
  constructor
  · intro h hcircles
    obtain ⟨k, hk⟩ := h.exists
    obtain ⟨r, hr⟩ := hk.exists
    obtain ⟨n, x, hn⟩ := hr.exists
    obtain ⟨s, hs, -⟩ := (@parseName_yields_iff _ [] _ _ _).mp ⟨n, hn⟩
    exact hcircles.not_ends hs.ends
  · intro h
    have hclosed : ∀ a ∈ List.range (p + buffer.length + 256), ∀ b, cursor buffer a = some b →
        b ∈ List.range (p + buffer.length + 256) := by
      intro a _ b hab
      have hlt := (cursor_lt hab).2
      rw [List.mem_range]
      omega
    have hp : p ∈ List.range (p + buffer.length + 256) := by
      rw [List.mem_range]
      omega
    obtain ⟨l, hl⟩ := (ends_or_circles hclosed hp).resolve_right h
    refine eventually_atTop.mpr ⟨p + 256, fun k hk => ?_⟩
    obtain ⟨s, hs⟩ := exists_reads hl (by omega) (show p < buffer.length + k by omega)
    refine eventually_atTop.mpr ⟨s.length, fun r hr => ?_⟩
    obtain ⟨m, hm⟩ := @Reads.returns _ [] (List.replicate r 0) _ _ hs
      (by rw [List.length_replicate]; exact hr)
    refine eventually_atTop.mpr ⟨m, fun n hn => ⟨written [] (List.replicate r 0) s, ?_⟩⟩
    have hrun := hm (n - m)
    rwa [Nat.sub_add_cancel hn] at hrun

end

/-- A message buffer with a pointer to itself at its beginning. -/
def loopBuffer : List UInt8 := [192, 0] ++ List.replicate 1022 0

/-- **A pointer to itself** is followed for ever: no number of turns is enough. -/
theorem not_nameReturns_loop : loopBuffer.length = 1024 ∧
    (∀ n k pos x, parseName (loopBuffer ++ List.replicate k 0) n 0 pos x = .error .outOfFuel) ∧
    ¬NameReturns loopBuffer 0 := by
  have hloop : ∀ n k pos x, parseName (loopBuffer ++ List.replicate k 0) n 0 pos x =
      .error .outOfFuel := by
    intro n k
    induction n with
    | zero =>
      intro pos x
      rfl
    | succ n ih =>
      intro pos x
      have hjump := @parseName_jump (loopBuffer ++ List.replicate k 0) 0 n pos 192 0 x rfl
        (by decide) rfl
      exact hjump.trans (ih x.2 x)
  have hlen : loopBuffer.length = 1024 := by
    rw [loopBuffer, List.length_append, List.length_replicate]
    rfl
  refine ⟨hlen, hloop, fun h => ?_⟩
  obtain ⟨k, hk⟩ := h.exists
  obtain ⟨r, hr⟩ := hk.exists
  obtain ⟨n, x, hn⟩ := hr.exists
  exact absurd ((hloop n k _ _).symm.trans hn) (by simp)

end Dns

end BackendStudy
