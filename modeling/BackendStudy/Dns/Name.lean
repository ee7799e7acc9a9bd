import BackendStudy.Dns.Bounds

/-!
# Names in a buffer of any size

`dns_parse_name` writes into the buffer of its caller. It keeps a pointer into this buffer and,
beside it, the count `*len`; the recursive call finds its place by the count again
(`BackendStudy.Dns.parseName`). Here the buffer and the count are both kept, and the buffer may
have any size. With the 127 bytes that a name buffer of the source has for its characters this is
the text that `BackendStudy.Dns.dnsParseName` appends to
(`BackendStudy.Dns.dnsParseName_eq`).

What the function writes is decided by the bytes alone: from each position they read as one text,
or as none (`BackendStudy.Dns.Reads`). The function returns if and only if there is such a text
and the buffer has room for it, and then it has written the text and counted its characters
(`BackendStudy.Dns.parseName_yields_iff`).
-/

namespace BackendStudy

namespace Dns

open Wire Slots Fuel

/-- `dns_parse_name`, from the turn of its loop at `ptr` and `pos` on: the buffer and `*len`. -/
def parseName (chunk : List UInt8) :
    ℕ → ℕ → ℕ → List UInt8 × ℕ → Except Fault (List UInt8 × ℕ)
  | 0, _, _, _ => .error .outOfFuel
  | fuel + 1, ptr, pos, (out, len) => do
    let flag ← byte .outOfRange chunk ptr
    if flag = 0 then .ok (out, len)
    else if isPointer flag then do
      let n ← byte .outOfRange chunk (ptr + 1)
      -- the recursive call begins to write at `*len`
      parseName chunk fuel n len (out, len)
    else do
      let label ← slice .outOfRange chunk (ptr + 1) flag
      let out ← blit .overflow out pos label
      let next ← byte .outOfRange chunk (ptr + 1 + flag)
      if next ≠ 0 then do
        let out ← blit .overflow out (pos + flag) [46]
        parseName chunk fuel (ptr + 1 + flag) (pos + flag + 1) (out, len + flag + 1)
      else parseName chunk fuel (ptr + 1 + flag) (pos + flag) (out, len + flag)

/-- What is written between a label and the byte behind it. -/
def dot (b : UInt8) : List UInt8 := if b = 0 then [] else [46]

/-- **The text that the bytes at a position read as**: pieces with their lengths in front of them,
a dot behind each piece that another byte than zero follows, and pointers of one byte. -/
inductive Reads (chunk : List UInt8) : ℕ → List UInt8 → Prop
  /-- The end. -/
  | zero {p : ℕ} : chunk[p]? = some 0 → Reads chunk p []
  /-- A pointer. -/
  | jump {p : ℕ} {b n : UInt8} {s : List UInt8} : chunk[p]? = some b → isPointer b.toNat = true →
      chunk[p + 1]? = some n → Reads chunk n.toNat s → Reads chunk p s
  /-- A piece. -/
  | piece {p : ℕ} {b next : UInt8} {l s : List UInt8} : chunk[p]? = some b → b ≠ 0 →
      isPointer b.toNat = false → At chunk (p + 1) l → l.length = b.toNat →
      chunk[p + 1 + b.toNat]? = some next → Reads chunk (p + 1 + b.toNat) s →
      Reads chunk p (l ++ (dot next ++ s))

section

variable {chunk w r l s : List UInt8} {p n pos : ℕ} {b next m : UInt8} {x : List UInt8 × ℕ}

/-! ### The turns of the loop -/

theorem parseName_zero (hb : chunk[p]? = some 0) : parseName chunk (n + 1) p pos x = .ok x := by
  rw [parseName, byte_of hb]
  rfl

theorem parseName_jump (hb : chunk[p]? = some b) (hptr : isPointer b.toNat = true)
    (hm : chunk[p + 1]? = some m) :
    parseName chunk (n + 1) p pos x = parseName chunk n m.toNat x.2 x := by
  have hne : ¬b.toNat = 0 := by
    intro h
    rw [h] at hptr
    exact absurd hptr (by decide)
  simp only [parseName, byte_of hb, ok_bind, hne, if_false, hptr, if_true, byte_of hm]

/-- The turn of the loop at a piece. -/
theorem parseName_atPiece (hb : chunk[p]? = some b) (hzero : b ≠ 0)
    (hptr : isPointer b.toNat = false) (out : List UInt8) (len : ℕ) :
    parseName chunk (n + 1) p pos (out, len) = (do
      let label ← slice .outOfRange chunk (p + 1) b.toNat
      let out ← blit .overflow out pos label
      let next ← byte .outOfRange chunk (p + 1 + b.toNat)
      if next ≠ 0 then do
        let out ← blit .overflow out (pos + b.toNat) [46]
        parseName chunk n (p + 1 + b.toNat) (pos + b.toNat + 1) (out, len + b.toNat + 1)
      else parseName chunk n (p + 1 + b.toNat) (pos + b.toNat) (out, len + b.toNat)) := by
  have hne : ¬b.toNat = 0 := fun h => hzero (UInt8.toNat_inj.mp h)
  simp only [parseName, byte_of hb, ok_bind, hne, if_false, hptr, Bool.false_eq_true]

/-- A piece that the buffer has room for, and for the dot behind it. -/
theorem parseName_piece (hb : chunk[p]? = some b) (hzero : b ≠ 0)
    (hptr : isPointer b.toNat = false) (hl : At chunk (p + 1) l) (hlen : l.length = b.toNat)
    (hnext : chunk[p + 1 + b.toNat]? = some next) (hroom : (l ++ dot next).length ≤ r.length) :
    parseName chunk (n + 1) p w.length (w ++ r, w.length) =
      parseName chunk n (p + 1 + b.toNat) (w ++ (l ++ dot next)).length
        (w ++ (l ++ dot next) ++ r.drop (l ++ dot next).length, (w ++ (l ++ dot next)).length) := by
  have hne : l ≠ [] := by
    rintro rfl
    exact hzero (UInt8.toNat_inj.mp hlen.symm)
  have hslice := hl.slice_eq (e := Fault.outOfRange) hne
  rw [hlen] at hslice
  rw [List.length_append] at hroom
  rw [parseName_atPiece hb hzero hptr, hslice, ok_bind, blit_at rfl (by omega), ok_bind,
    byte_of hnext, ok_bind]
  by_cases hlast : next = 0
  · subst hlast
    simp [dot, hlen]
  · have hdot : next.toNat ≠ 0 := fun h => hlast (UInt8.toNat_inj.mp h)
    have hone : (dot next).length = 1 := by simp [dot, hlast]
    have hblit := @blit_at _ _ Fault.overflow (w ++ l) (r.drop l.length) [46]
      (w.length + b.toNat) (by rw [List.length_append, hlen])
      (by rw [List.length_drop, List.length_singleton]; omega)
    rw [if_pos hdot, ← List.append_assoc, hblit, ok_bind]
    simp [dot, hlast, hlen, Nat.add_assoc]

/-- What a turn of the loop that comes to a result has done. -/
theorem parseName_cases (h : parseName chunk (n + 1) p w.length (w ++ r, w.length) = .ok x) :
    chunk[p]? = some 0 ∧ x = (w ++ r, w.length) ∨
      (∃ b m, chunk[p]? = some b ∧ isPointer b.toNat = true ∧ chunk[p + 1]? = some m ∧
        parseName chunk n m.toNat w.length (w ++ r, w.length) = .ok x) ∨
      ∃ b l next, chunk[p]? = some b ∧ b ≠ 0 ∧ isPointer b.toNat = false ∧ At chunk (p + 1) l ∧
        l.length = b.toNat ∧ chunk[p + 1 + b.toNat]? = some next ∧
        (l ++ dot next).length ≤ r.length := by
  cases hb : chunk[p]? with
  -- there is no byte to read
  | none =>
    rw [parseName, byte_none hb] at h
    exact absurd h (by simp)
  | some b =>
    by_cases hzero : b = 0
    · subst hzero
      rw [parseName_zero hb] at h
      exact Or.inl ⟨rfl, (Except.ok.inj h).symm⟩
    refine Or.inr ?_
    cases hptr : isPointer b.toNat with
    | true =>
      have hne : ¬b.toNat = 0 := fun h => hzero (UInt8.toNat_inj.mp h)
      cases hm : chunk[p + 1]? with
      | none =>
        simp [parseName, byte_of hb, hne, hptr, byte_none hm] at h
      | some m =>
        rw [parseName_jump hb hptr hm] at h
        exact Or.inl ⟨b, m, rfl, hptr, rfl, h⟩
    | false =>
      rw [parseName_atPiece hb hzero hptr] at h
      -- a label: it must be there, have room, and have a byte behind it
      refine Or.inr ?_
      by_cases hfit : p + 1 + b.toNat ≤ chunk.length
      · obtain ⟨l, hslice, hlen, hl⟩ := exists_slice Fault.outOfRange hfit
        rw [hslice, ok_bind] at h
        by_cases hroom : l.length ≤ r.length
        · rw [blit_at rfl hroom, ok_bind] at h
          cases hnext : chunk[p + 1 + b.toNat]? with
          | none =>
            rw [byte_none hnext] at h
            exact absurd h (by simp)
          | some next =>
            refine ⟨b, l, next, rfl, hzero, hptr, hl, hlen, hnext, ?_⟩
            by_cases hlast : next = 0
            · simpa [dot, hlast] using hroom
            -- the dot has room as well, or it would be written behind the buffer
            · have hdot : next.toNat ≠ 0 := fun h => hlast (UInt8.toNat_inj.mp h)
              by_contra hfull
              simp only [dot, hlast, if_false, List.length_append, List.length_singleton] at hfull
              have hblit := @blit_full _ _ Fault.overflow (w ++ l) (r.drop l.length) [46]
                (w.length + b.toNat) (by rw [List.length_append, hlen])
                (by rw [List.length_drop, List.length_singleton]; omega)
              rw [byte_of hnext, ok_bind, if_pos hdot, ← List.append_assoc, hblit] at h
              exact absurd h (by simp)
        · rw [blit_full rfl (by omega)] at h
          exact absurd h (by simp)
      · rw [slice, if_neg hfit] at h
        exact absurd h (by simp)

/-! ### The text that is written -/

/-- Bytes read as one text only. -/
theorem Reads.unique {s' : List UInt8} (h : Reads chunk p s) (h' : Reads chunk p s') :
    s = s' := by
  induction h generalizing s' with
  | zero hb =>
    rcases h' with _ | ⟨hb', hptr', -, -⟩ | ⟨hb', hne', -, -, -, -, -⟩
    · rfl
    · obtain rfl := Option.some.inj (hb.symm.trans hb')
      exact absurd hptr' (by decide)
    · exact absurd (Option.some.inj (hb'.symm.trans hb)) hne'
  | jump hb hptr hm _ ih =>
    rcases h' with hb' | ⟨hb', -, hm', hs'⟩ | ⟨hb', -, hptr', -, -, -, -⟩
    · obtain rfl := Option.some.inj (hb.symm.trans hb')
      exact absurd hptr (by decide)
    · obtain rfl := Option.some.inj (hm.symm.trans hm')
      exact ih hs'
    · obtain rfl := Option.some.inj (hb.symm.trans hb')
      exact absurd (hptr.symm.trans hptr') (by simp)
  | piece hb hne hptr hl hlen hnext _ ih =>
    rcases h' with hb' | ⟨hb', hptr', -, -⟩ | ⟨hb', -, -, hl', hlen', hnext', hs'⟩
    · exact absurd (Option.some.inj (hb.symm.trans hb')) hne
    · obtain rfl := Option.some.inj (hb.symm.trans hb')
      exact absurd (hptr.symm.trans hptr') (by simp)
    · obtain rfl := Option.some.inj (hb.symm.trans hb')
      obtain rfl := Option.some.inj (hnext.symm.trans hnext')
      obtain rfl := List.prefix_of_prefix_length_le hl hl' (hlen.trans hlen'.symm).le
        |>.eq_of_length (hlen.trans hlen'.symm)
      rw [ih hs']

/-- The state behind a text that has been written. -/
def written (w r s : List UInt8) : List UInt8 × ℕ :=
  (w ++ (s ++ r.drop s.length), (w ++ s).length)

theorem written_nil (r s : List UInt8) : written [] r s = (s ++ r.drop s.length, s.length) := rfl

theorem written_take (w r s : List UInt8) : (written w r s).1.take (written w r s).2 = w ++ s := by
  rw [written, ← List.append_assoc, List.take_left]

theorem written_append (w r t s : List UInt8) :
    written (w ++ t) (r.drop t.length) s = written w r (t ++ s) := by
  simp [written]

/-- The function writes the text, where there is room for it. -/
theorem Reads.returns (h : Reads chunk p s) (hroom : s.length ≤ r.length) :
    ∃ k, ∀ n, parseName chunk (n + k) p w.length (w ++ r, w.length) = .ok (written w r s) := by
  induction h generalizing w r with
  | zero hb => exact ⟨1, fun n => (parseName_zero hb).trans (by simp [written])⟩
  | jump hb hptr hm _ ih =>
    obtain ⟨k, hk⟩ := ih hroom
    exact ⟨k + 1, fun n => (parseName_jump hb hptr hm).trans (hk n)⟩
  | @piece p b next l s hb hne hptr hl hlen hnext _ ih =>
    rw [← List.append_assoc, List.length_append] at hroom
    obtain ⟨k, hk⟩ := @ih (w ++ (l ++ dot next)) (r.drop (l ++ dot next).length)
      (by rw [List.length_drop]; omega)
    refine ⟨k + 1, fun n => (parseName_piece hb hne hptr hl hlen hnext (by omega)).trans ?_⟩
    exact (hk n).trans (by rw [written_append, List.append_assoc])

/-- **What the function writes is what the bytes read as**, and it returns if and only if they read
as a text that the buffer has room for. -/
theorem parseName_yields_iff :
    Yields (fun n => parseName chunk n p w.length (w ++ r, w.length)) x ↔
      ∃ s, Reads chunk p s ∧ s.length ≤ r.length ∧ x = written w r s := by
  constructor
  · rintro ⟨n, hn⟩
    induction n generalizing p w r with
    | zero => exact absurd hn (by simp [parseName])
    | succ n ih =>
      obtain ⟨hb, rfl⟩ | ⟨b, m, hb, hptr, hm, hrest⟩ |
        ⟨b, l, next, hb, hne, hptr, hl, hlen, hnext, hroom⟩ := parseName_cases hn
      · exact ⟨[], .zero hb, by simp, by simp [written]⟩
      · obtain ⟨s, hs, hfit, hx⟩ := ih hrest
        exact ⟨s, .jump hb hptr hm hs, hfit, hx⟩
      · simp only [parseName_piece hb hne hptr hl hlen hnext hroom] at hn
        obtain ⟨s, hs, hfit, hx⟩ := ih hn
        refine ⟨_, .piece hb hne hptr hl hlen hnext hs, ?_, ?_⟩
        · rw [List.length_drop] at hfit
          rw [← List.append_assoc, List.length_append]
          omega
        · rw [hx, written_append, List.append_assoc]
  · rintro ⟨s, hs, hroom, rfl⟩
    obtain ⟨k, hk⟩ := hs.returns hroom
    exact ⟨0 + k, hk 0⟩

/-! ### The name buffers of the source -/

/-- Appending to a name buffer is copying to its free part. -/
theorem writeName_cases (hsize : (w ++ r).length = 127) (l : List UInt8) :
    (writeName w l = .ok (w ++ l) ∧
      blit Fault.overflow (w ++ r) w.length l = .ok (w ++ l ++ r.drop l.length) ∧
      (w ++ l ++ r.drop l.length).length = 127) ∨
    writeName w l = .error .overflow ∧
      blit Fault.overflow (w ++ r) w.length l = .error .overflow := by
  rw [List.length_append] at hsize
  by_cases hroom : l.length ≤ r.length
  · refine Or.inl ⟨?_, ?_, ?_⟩
    · exact writeName_fits (by omega)
    · rw [blit_at rfl hroom, List.append_assoc]
    · simp only [List.length_append, List.length_drop]
      omega
  · exact Or.inr ⟨writeName_full (by omega), blit_full rfl (by omega)⟩

/-- **The text in a name buffer** is what has been written of its first 127 bytes. -/
theorem dnsParseName_eq (hsize : (w ++ r).length = 127) : dnsParseName chunk n p w =
    (parseName chunk n p w.length (w ++ r, w.length)).map fun x => x.1.take x.2 := by
  induction n generalizing p w r with
  | zero => rfl
  | succ n ih =>
    cases hb : chunk[p]? with
    | none =>
      rw [dnsParseName, parseName, byte_none hb]
      rfl
    | some b =>
      by_cases hzero : b = 0
      · subst hzero
        rw [parseName_zero hb, dnsParseName, byte_of hb]
        simp [Except.map]
      have hne : ¬b.toNat = 0 := fun h => hzero (UInt8.toNat_inj.mp h)
      cases hptr : isPointer b.toNat with
      | true =>
        cases hm : chunk[p + 1]? with
        | none => simp [dnsParseName, parseName, byte_of hb, hne, hptr, byte_none hm, Except.map]
        | some m =>
          rw [parseName_jump hb hptr hm, ← ih hsize]
          simp only [dnsParseName, byte_of hb, ok_bind, hne, if_false, hptr, if_true, byte_of hm]
      | false =>
        rw [dnsParseName_atLabel hb hzero hptr, parseName_atPiece hb hzero hptr]
        cases hslice : slice Fault.outOfRange chunk (p + 1) b.toNat with
        | error e => rfl
        | ok l =>
          have hlen : l.length = b.toNat := slice_length hslice
          have hw : w.length + b.toNat = (w ++ l).length := by rw [List.length_append, hlen]
          rw [ok_bind, ok_bind, hw]
          -- the label
          obtain ⟨hwrite, hblit, hsize'⟩ | ⟨hwrite, hblit⟩ := writeName_cases hsize l
          · rw [hwrite, hblit, ok_bind, ok_bind]
            cases hnext : chunk[p + 1 + b.toNat]? with
            | none =>
              rw [byte_none hnext]
              rfl
            | some next =>
              rw [byte_of hnext, ok_bind, ok_bind]
              by_cases hlast : next.toNat = 0
              · rw [if_neg (not_not.mpr hlast), if_neg (not_not.mpr hlast), ok_bind]
                exact ih hsize'
              rw [if_pos hlast, if_pos hlast]
              -- the dot
              obtain ⟨hwrite', hblit', hsize''⟩ | ⟨hwrite', hblit'⟩ := writeName_cases hsize' [46]
              · have hw' : (w ++ l).length + 1 = (w ++ l ++ [46]).length := by
                  rw [@List.length_append _ (w ++ l), List.length_singleton]
                rw [hwrite', hblit', ok_bind, ok_bind, hw']
                exact ih hsize''
              · rw [hwrite', hblit']
                rfl
          · rw [hwrite, hblit]
            rfl

end

end Dns

end BackendStudy
