import BackendStudy.Hiredis.Scan
import BackendStudy.Lib.Incremental

/-!
# The protocol, and a machine that reads it

What the reader takes for the text of a reply is `BackendStudy.Hiredis.Wire`: the type, and a
line, or a length and as many bytes with two more behind them, or a number of elements and the
elements; no more than eight arrays are around one another. The machine of this file reads it as
the reader does, one item after another, but with the arrays that are not complete as a stack of
lists of replies (`BackendStudy.Hiredis.Machine`).

The machine is a steady parser (`BackendStudy.Hiredis.steady_step`). It reads every text of a
reply (`BackendStudy.Hiredis.Wire.reads`), and what it has read is texts of replies, with the
beginning of one (`BackendStudy.Hiredis.Reads.wires`).
-/

namespace BackendStudy

namespace Hiredis

open Redis Decimal Incremental

/-! ### Texts of replies -/

/-- The types of the items that are a line of text. -/
def lineType : Char → Option ReplyType
  | '+' => some .status
  | '-' => some .error
  | _ => none

/-- A reply that is nothing. -/
def nilReply : Reply := ⟨.nil, 0, [], []⟩

/-- A number and the end of its line. -/
def header (z : ℤ) : Str := decimal z ++ crlf

mutual

/-- **The text of a reply**, with so many arrays around it. -/
inductive Wire : ℕ → Reply → Str → Prop
  /-- A status or an error. -/
  | line {d : ℕ} {c : Char} {t : ReplyType} {l : Str} : lineType c = some t → IsLine l →
      Wire d ⟨t, 0, l, []⟩ (c :: (l ++ crlf))
  /-- A number. -/
  | integer {d : ℕ} {z : ℤ} : -2 ^ 63 ≤ z → z < 2 ^ 63 →
      Wire d ⟨.integer, z, [], []⟩ (':' :: header z)
  /-- A string, whose end is two bytes that are not looked at. -/
  | string {d : ℕ} {s e : Str} : s.length < 2 ^ 63 → e.length = 2 →
      Wire d ⟨.string, 0, s, []⟩ ('$' :: (header s.length ++ (s ++ e)))
  /-- No string. -/
  | nilString {d : ℕ} : Wire d nilReply ('$' :: header (-1))
  /-- No array. -/
  | nilArray {d : ℕ} : d < 8 → Wire d nilReply ('*' :: header (-1))
  /-- An array. -/
  | array {d : ℕ} {rs : List Reply} {b : Str} : d < 8 → rs.length < 2 ^ 31 →
      Wires (d + 1) rs b → Wire d ⟨.array, 0, [], rs⟩ ('*' :: (header rs.length ++ b))

/-- **The texts of replies**, one after another. -/
inductive Wires : ℕ → List Reply → Str → Prop
  /-- Nothing. -/
  | nil {d : ℕ} : Wires d [] []
  /-- One more reply. -/
  | cons {d : ℕ} {r : Reply} {rs : List Reply} {a b : Str} : Wire d r a → Wires d rs b →
      Wires d (r :: rs) (a ++ b)

end

/-! ### The machine -/

/-- An array that is not complete. -/
structure Frame where
  /-- How many elements it has. -/
  elements : ℕ
  /-- The elements that have been read. -/
  done : List Reply

/-- The arrays that are not complete, the innermost one first, and the type of the item that is
being read. -/
structure Machine where
  /-- The arrays. -/
  frames : List Frame
  /-- The type, if it has been read. -/
  type : Option ReplyType

/-- Nothing has been read. -/
def Machine.start : Machine := ⟨[], none⟩

/-- An item has been read: it goes into the innermost array, and with it that one may be complete.
A reply that is in no array is a result. -/
def finish : List Frame → Reply → List Frame × Option Reply
  | [], r => ([], some r)
  | f :: fs, r =>
    if f.done.length + 1 = f.elements then finish fs ⟨.array, 0, [], f.done ++ [r]⟩
    else (⟨f.elements, f.done ++ [r]⟩ :: fs, none)

/-- A reply has been read, with so many bytes. -/
def Machine.emit (m : Machine) (n : ℕ) (r : Reply) : Outcome Machine Reply Str :=
  .next n ⟨(finish m.frames r).1, none⟩ (finish m.frames r).2

/-- What is read of a line, if there is one, with its length. -/
def onLine (u : Str) (f : ℕ → Str → Outcome Machine Reply Str) : Outcome Machine Reply Str :=
  match newline u with
  | none => .wait
  | some k => f k (u.take k)

/-- A status, an error or a number. -/
def Machine.stepLine (m : Machine) (t : ReplyType) (u : Str) : Outcome Machine Reply Str :=
  onLine u fun k l =>
    if t = .integer then
      match string2ll l with
      | none => .fail "Bad integer value".toList
      | some z => m.emit (k + 2) ⟨.integer, z, [], []⟩
    else m.emit (k + 2) ⟨t, 0, l, []⟩

/-- A string. -/
def Machine.stepBulk (m : Machine) (u : Str) : Outcome Machine Reply Str :=
  onLine u fun k l =>
    match string2ll l with
    | none => .fail "Bad bulk string length".toList
    | some len =>
      if len < -1 then .fail "Bulk string length out of range".toList
      else if len = -1 then m.emit (k + 2) nilReply
      else if k + 2 + (len.toNat + 2) ≤ u.length then
        m.emit (k + 2 + (len.toNat + 2)) ⟨.string, 0, (u.drop (k + 2)).take len.toNat, []⟩
      else .wait

/-- An array. -/
def Machine.stepMulti (m : Machine) (u : Str) : Outcome Machine Reply Str :=
  if m.frames.length = 8 then
    .fail "No support for nested multi bulk replies with depth > 7".toList
  else
    onLine u fun k l =>
      match string2ll l with
      | none => .fail "Bad multi-bulk length".toList
      | some elements =>
        if elements < -1 ∨ elements > 2 ^ 31 - 1 then
          .fail "Multi-bulk length out of range".toList
        else if elements = -1 then m.emit (k + 2) nilReply
        else if elements > 0 then .next (k + 2) ⟨⟨elements.toNat, []⟩ :: m.frames, none⟩ none
        else m.emit (k + 2) ⟨.array, 0, [], []⟩

/-- **One step of the machine.** -/
def step (m : Machine) (u : Str) : Outcome Machine Reply Str :=
  match m.type with
  | none =>
    match u with
    | [] => .wait
    | c :: _ =>
      match itemType c with
      | none => .fail (protocolByteError c)
      | some t => .next 1 ⟨m.frames, some t⟩ none
  | some .string => m.stepBulk u
  | some .array => m.stepMulti u
  | some t => m.stepLine t u

/-! ### Steadiness -/

section

variable {m m' : Machine} {u w l b : Str} {n k d : ℕ} {o : Option Reply} {e : Str} {t : ReplyType}
  {r : Reply} {rs outs : List Reply} {fs : List Frame} {f : Frame}
  {x y : Outcome Machine Reply Str} {g h : ℕ → Str → Outcome Machine Reply Str}

/-- **An outcome that stays** when there is more: it is not of waiting, or it may be another, and
what is read was there. -/
def Stays (n : ℕ) : Outcome Machine Reply Str → Outcome Machine Reply Str → Prop
  | .wait, _ => True
  | .next k m o, y => k ≤ n ∧ y = .next k m o
  | .fail e, y => y = .fail e

theorem stays_emit (hk : k ≤ n) : Stays n (m.emit k r) (m.emit k r) := ⟨hk, rfl⟩

theorem stays_onLine (hg : ∀ k, k + 2 ≤ u.length → newline u = some k →
    Stays u.length (g k (u.take k)) (h k (u.take k))) :
    Stays u.length (onLine u g) (onLine (u ++ w) h) := by
  unfold onLine
  cases hu : newline u with
  | none => trivial
  | some k =>
    have hle : k + 2 ≤ u.length := by
      obtain ⟨l, v, rfl, rfl, -⟩ := exists_line hu
      simp [crlf]
    rw [newline_of_append hu w]
    dsimp only
    have htake : (u ++ w).take k = u.take k := List.take_append_of_le_length (by omega)
    rw [htake]
    exact hg _ hle hu

theorem stays_step (m : Machine) (u w : Str) : Stays u.length (step m u) (step m (u ++ w)) := by
  -- without a type one byte decides, and it is in the part that is there
  rcases m with ⟨fs, _ | t⟩
  · cases u with
    | nil => trivial
    | cons c u =>
      unfold step
      dsimp only [List.cons_append]
      split
      · rfl
      · exact ⟨by simp, rfl⟩
  have hline : ∀ t, Stays u.length (Machine.stepLine ⟨fs, some t⟩ t u)
      (Machine.stepLine ⟨fs, some t⟩ t (u ++ w)) := fun t => by
    refine stays_onLine fun k hk _ => ?_
    split_ifs
    · split
      · rfl
      · exact stays_emit hk
    · exact stays_emit hk
  have hbulk : Stays u.length (Machine.stepBulk ⟨fs, some .string⟩ u)
      (Machine.stepBulk ⟨fs, some .string⟩ (u ++ w)) := by
    refine stays_onLine fun k hk _ => ?_
    split
    · rfl
    · next len _ =>
      split_ifs with hrange hnil hroom hroom'
      · rfl
      · exact stays_emit hk
      -- the string is taken from the part that is there, so more bytes do not change it
      · rw [List.drop_append_of_le_length (by omega),
          List.take_append_of_le_length (by rw [List.length_drop]; omega)]
        exact stays_emit hroom
      -- a string that is complete does not become incomplete by more bytes
      · exact absurd (hroom.trans (by simp)) hroom'
      · trivial
      · trivial
  have hmulti : Stays u.length (Machine.stepMulti ⟨fs, some .array⟩ u)
      (Machine.stepMulti ⟨fs, some .array⟩ (u ++ w)) := by
    unfold Machine.stepMulti
    split_ifs
    · rfl
    · refine stays_onLine fun k hk _ => ?_
      split
      · rfl
      · split_ifs
        · rfl
        · exact stays_emit hk
        · exact ⟨hk, rfl⟩
        · exact stays_emit hk
  cases t with
  | string => exact hbulk
  | array => exact hmulti
  | integer => exact hline _
  | nil => exact hline _
  | status => exact hline _
  | error => exact hline _

/-- **The machine is a steady parser.** -/
theorem steady_step : Steady step where
  le_length := fun {m u n m' o} h => by
    have hs := stays_step m u []
    rw [h] at hs
    exact hs.1
  next := fun {m u n m' o} h w => by
    have hs := stays_step m u w
    rw [h] at hs
    exact hs.2
  fail := fun {m u e} h w => by
    have hs := stays_step m u w
    rw [h] at hs
    exact hs

/-! ### Every text of a reply is read -/

theorem newline_header (z : ℤ) (w : Str) : newline (header z ++ w) = some (decimal z).length := by
  rw [header, List.append_assoc]
  exact newline_append (isLine_decimal z) w

theorem take_header (z : ℤ) (w : Str) : (header z ++ w).take (decimal z).length = decimal z := by
  rw [header, List.append_assoc, List.take_left]

theorem length_header (z : ℤ) : (header z).length = (decimal z).length + 2 := by
  simp [header, crlf]

theorem drop_header (z : ℤ) (w : Str) : (header z ++ w).drop ((decimal z).length + 2) = w := by
  rw [← length_header, List.drop_left]

theorem string2ll_decimal {z : ℤ} (h₀ : -2 ^ 63 ≤ z) (h₁ : z < 2 ^ 63) :
    string2ll (decimal z) = some z :=
  string2ll_eq_some_iff.mpr ⟨rfl, h₀, h₁⟩

/-- A number is read where a line is expected. -/
theorem onLine_header (z : ℤ) (w : Str) :
    onLine (header z ++ w) g = g (decimal z).length (decimal z) := by
  rw [onLine, newline_header]
  dsimp only
  rw [take_header]

/-- An item is read: its type, and what is behind it. -/
theorem reads_item {c : Char} (hc : itemType c = some t)
    (h : step ⟨fs, some t⟩ (b ++ w) = Machine.emit ⟨fs, some t⟩ b.length r) :
    Reads step ⟨fs, none⟩ (c :: b ++ w) (finish fs r).2.toList ⟨(finish fs r).1, none⟩ w := by
  have htype : step ⟨fs, none⟩ (c :: b ++ w) = .next 1 ⟨fs, some t⟩ none := by
    simp [step, hc]
  have hread := (Reads.single htype).snoc h
  simpa using hread

theorem step_line {c : Char} (hc : lineType c = some t) (hl : IsLine l) (w : Str) :
    itemType c = some t ∧ step ⟨fs, some t⟩ (l ++ crlf ++ w) =
      Machine.emit ⟨fs, some t⟩ (l ++ crlf).length ⟨t, 0, l, []⟩ := by
  have hline : ∀ t, t ≠ .integer → Machine.stepLine ⟨fs, some t⟩ t (l ++ crlf ++ w) =
      Machine.emit ⟨fs, some t⟩ (l ++ crlf).length ⟨t, 0, l, []⟩ := fun t ht => by
    rw [Machine.stepLine, onLine, List.append_assoc, newline_append hl w]
    dsimp only
    rw [List.take_left, if_neg ht, List.length_append]
    rfl
  unfold lineType at hc
  split at hc
  · obtain rfl := Option.some.inj hc
    exact ⟨rfl, hline _ (by decide)⟩
  · obtain rfl := Option.some.inj hc
    exact ⟨rfl, hline _ (by decide)⟩
  · exact absurd hc (by simp)

theorem step_integer {z : ℤ} (h₀ : -2 ^ 63 ≤ z) (h₁ : z < 2 ^ 63) (w : Str) :
    step ⟨fs, some .integer⟩ (header z ++ w) =
      Machine.emit ⟨fs, some .integer⟩ (header z).length ⟨.integer, z, [], []⟩ := by
  change Machine.stepLine _ _ _ = _
  rw [Machine.stepLine, onLine_header, if_pos rfl, string2ll_decimal h₀ h₁, length_header]

theorem step_string {s e : Str} (hs : s.length < 2 ^ 63) (he : e.length = 2) (w : Str) :
    step ⟨fs, some .string⟩ (header s.length ++ (s ++ e) ++ w) =
      Machine.emit ⟨fs, some .string⟩ (header s.length ++ (s ++ e)).length
        ⟨.string, 0, s, []⟩ := by
  change Machine.stepBulk _ _ = _
  rw [Machine.stepBulk, List.append_assoc, onLine_header, string2ll_decimal (by omega) (by omega)]
  dsimp only
  rw [if_neg (by omega), if_neg (by omega), drop_header, Int.toNat_natCast, List.append_assoc,
    List.take_left, if_pos]
  · simp only [List.length_append, length_header, he]
  · simp only [List.length_append, length_header, he]
    omega

theorem step_nilString (w : Str) :
    step ⟨fs, some .string⟩ (header (-1) ++ w) =
      Machine.emit ⟨fs, some .string⟩ (header (-1)).length nilReply := by
  change Machine.stepBulk _ _ = _
  rw [Machine.stepBulk, onLine_header, string2ll_decimal (by decide) (by decide)]
  dsimp only
  rw [if_neg (by decide), if_pos rfl, length_header]

theorem step_nilArray (hfs : fs.length ≠ 8) (w : Str) :
    step ⟨fs, some .array⟩ (header (-1) ++ w) =
      Machine.emit ⟨fs, some .array⟩ (header (-1)).length nilReply := by
  change Machine.stepMulti _ _ = _
  rw [Machine.stepMulti, if_neg hfs, onLine_header, string2ll_decimal (by decide) (by decide)]
  dsimp only
  rw [if_neg (by decide), if_pos rfl, length_header]

theorem step_emptyArray (hfs : fs.length ≠ 8) (w : Str) :
    step ⟨fs, some .array⟩ (header 0 ++ w) =
      Machine.emit ⟨fs, some .array⟩ (header 0).length ⟨.array, 0, [], []⟩ := by
  change Machine.stepMulti _ _ = _
  rw [Machine.stepMulti, if_neg hfs, onLine_header, string2ll_decimal (by decide) (by decide)]
  dsimp only
  rw [if_neg (by decide), if_neg (by decide), if_neg (by decide), length_header]

theorem step_array (hfs : fs.length ≠ 8) (hpos : 0 < n) (hn : n < 2 ^ 31) (w : Str) :
    step ⟨fs, some .array⟩ (header n ++ w) =
      .next (header n).length ⟨⟨n, []⟩ :: fs, none⟩ none := by
  change Machine.stepMulti _ _ = _
  rw [Machine.stepMulti, if_neg hfs, onLine_header, string2ll_decimal (by omega) (by omega)]
  dsimp only
  rw [if_neg (by omega), if_neg (by omega), if_pos (by omega), length_header, Int.toNat_natCast]

/-- An array is opened. -/
theorem reads_open (hfs : fs.length ≠ 8) (hpos : 0 < n) (hn : n < 2 ^ 31) (w : Str) :
    Reads step ⟨fs, none⟩ ('*' :: (header n ++ w)) [] ⟨⟨n, []⟩ :: fs, none⟩ w := by
  have htype : step ⟨fs, none⟩ ('*' :: (header n ++ w)) = .next 1 ⟨fs, some .array⟩ none := rfl
  have hread := (Reads.single htype).snoc (step_array hfs hpos hn w)
  simpa using hread

mutual

/-- **The text of a reply is read**, whatever is behind it. -/
theorem Wire.reads {d : ℕ} {r : Reply} {b : Str} (hr : Wire d r b) {fs : List Frame}
    (hd : fs.length = d) (w : Str) :
    Reads step ⟨fs, none⟩ (b ++ w) (finish fs r).2.toList ⟨(finish fs r).1, none⟩ w := by
  cases hr with
  | line hc hl =>
    obtain ⟨hitem, hstep⟩ := step_line hc hl w
    exact reads_item hitem hstep
  | integer h₀ h₁ => exact reads_item rfl (step_integer h₀ h₁ w)
  | string hs he => exact reads_item rfl (step_string hs he w)
  | nilString => exact reads_item rfl (step_nilString w)
  | nilArray hlt => exact reads_item rfl (step_nilArray (by omega) w)
  | @array _ rs b hlt hlen hrs =>
    by_cases hne : rs = []
    · subst hne
      cases hrs
      rw [List.append_nil]
      exact reads_item rfl (step_emptyArray (by omega) w)
    · have hpos : 0 < rs.length := List.length_pos_iff.mpr hne
      have hopen := reads_open (show fs.length ≠ 8 by omega) hpos hlen (b ++ w)
      have hall := hopen.trans
        (Wires.reads hrs (f := ⟨rs.length, []⟩) hd (by simp) hne rfl w)
      simpa using hall

/-- The elements of an array are read. -/
theorem Wires.reads {d : ℕ} {rs : List Reply} {b : Str} (hrs : Wires (d + 1) rs b)
    {fs : List Frame} {f : Frame} {r : Reply} (hd : fs.length = d)
    (hlen : f.done.length + rs.length = f.elements) (hne : rs ≠ [])
    (hr : r = ⟨.array, 0, [], f.done ++ rs⟩) (w : Str) :
    Reads step ⟨f :: fs, none⟩ (b ++ w) (finish fs r).2.toList ⟨(finish fs r).1, none⟩ w := by
  cases hrs with
  | nil => exact absurd rfl hne
  | @cons _ r₁ rs a b h₁ hrs =>
    have hfirst := h₁.reads (show (f :: fs).length = d + 1 by simp [hd]) (b ++ w)
    rw [List.append_assoc]
    rw [List.length_cons] at hlen
    by_cases hlast : rs = []
    · subst hlast
      cases hrs
      have hfull : f.done.length + 1 = f.elements := by simpa using hlen
      rw [finish, if_pos hfull, ← hr] at hfirst
      exact hfirst
    · have hpos : 0 < rs.length := List.length_pos_iff.mpr hlast
      rw [finish, if_neg (by omega)] at hfirst
      have hrest := Wires.reads hrs (f := ⟨f.elements, f.done ++ [r₁]⟩) (r := r) hd
        (by simp; omega) hlast (by simp [hr]) w
      exact hfirst.trans hrest

end

/-- Replies one after another are read. -/
theorem reads_wires (h : Wires 0 rs b) (w : Str) : Reads step .start (b ++ w) rs .start w := by
  induction rs generalizing b with
  | nil =>
    cases h
    exact .nil
  | cons r rs ih =>
    cases h with
    | @cons _ _ _ a b hr hrs =>
      have hfirst := hr.reads (show ([] : List Frame).length = 0 from rfl) (b ++ w)
      rw [List.append_assoc]
      exact hfirst.trans (ih hrs)

/-! ### What is read is texts of replies -/

theorem Wires.append (h : Wires d rs b) {rs' : List Reply} {b' : Str} (h' : Wires d rs' b') :
    Wires d (rs ++ rs') (b ++ b') := by
  induction rs generalizing b with
  | nil =>
    cases h
    exact h'
  | cons r rs ih =>
    cases h with
    | cons hr hrs =>
      rw [List.append_assoc]
      exact .cons hr (ih hrs)

theorem Wires.snoc (h : Wires d rs b) {a : Str} (hr : Wire d r a) :
    Wires d (rs ++ [r]) (b ++ a) := by
  have hlast := h.append (.cons hr .nil)
  rwa [List.append_nil] at hlast

/-- **The text of the arrays that are not complete.** -/
inductive Pending : List Frame → Str → Prop
  /-- There are none. -/
  | nil : Pending [] []
  /-- One more, inside of the others. -/
  | cons {fs : List Frame} {f : Frame} {p b : Str} : Pending fs p → fs.length < 8 →
      f.done.length < f.elements → f.elements < 2 ^ 31 → Wires (fs.length + 1) f.done b →
      Pending (f :: fs) (p ++ ('*' :: (header f.elements ++ b)))

theorem Pending.length_le {p : Str} (h : Pending fs p) : fs.length ≤ 8 := by
  cases h with
  | nil => exact Nat.zero_le _
  | cons _ hlt _ _ _ => exact hlt

/-- **An item that has been read** is a part of what is not complete, or completes it. -/
theorem Pending.finish {p a : Str} (h : Pending fs p) (hr : Wire fs.length r a) :
    ((Hiredis.finish fs r).2 = none ∧ Pending (Hiredis.finish fs r).1 (p ++ a)) ∨
      ∃ r', Hiredis.finish fs r = ([], some r') ∧ Wire 0 r' (p ++ a) := by
  induction h generalizing r a with
  | nil => exact .inr ⟨r, rfl, hr⟩
  | @cons fs f p b hp hlt hdone hmax hb ih =>
    have hdone' := hb.snoc hr
    rw [Hiredis.finish]
    split_ifs with hfull
    · have harray : Wire fs.length ⟨.array, 0, [], f.done ++ [r]⟩
          ('*' :: (header f.elements ++ (b ++ a))) := by
        have hlen : (f.done ++ [r]).length = f.elements := by simp [hfull]
        rw [← hlen]
        exact .array hlt (by omega) hdone'
      have hin := ih harray
      simpa using hin
    · refine .inl ⟨rfl, ?_⟩
      have hopen := Pending.cons (f := ⟨f.elements, f.done ++ [r]⟩) hp hlt
        (by simp; omega) hmax hdone'
      simpa using hopen

/-- The text of the type of an item. -/
def TypeText (m : Machine) (p : Str) : Prop :=
  match m.type with
  | none => p = []
  | some t => ∃ c, itemType c = some t ∧ p = [c]

/-- What an outcome takes of a text: an item, or the beginning of an array. -/
def Takes (fs : List Frame) (c : Char) (u : Str) : Outcome Machine Reply Str → Prop
  | .next n m o =>
    (∃ r, Wire fs.length r (c :: u.take n) ∧ m = ⟨(finish fs r).1, none⟩ ∧ o = (finish fs r).2) ∨
      ∃ k : ℕ, c :: u.take n = '*' :: header k ∧ fs.length < 8 ∧ 0 < k ∧ k < 2 ^ 31 ∧
        m = ⟨⟨k, []⟩ :: fs, none⟩ ∧ o = none
  | _ => True

theorem takes_emit {c : Char} (hr : Wire fs.length r (c :: u.take n)) :
    Takes fs c u (Machine.emit ⟨fs, some t⟩ n r) :=
  .inl ⟨r, hr, rfl, rfl⟩

/-- What an outcome takes of the first line and of what is behind it. -/
theorem takes_onLine {c : Char} (h : ∀ l v, u = l ++ (crlf ++ v) → IsLine l →
    Takes fs c u (g l.length l)) : Takes fs c u (onLine u g) := by
  unfold onLine
  cases hu : newline u with
  | none => trivial
  | some k =>
    obtain ⟨l, v, hu', rfl, hl⟩ := exists_line hu
    have htake : u.take l.length = l := by rw [hu', List.take_left]
    dsimp only
    rw [htake]
    exact h l v hu' hl

/-- The number that is read from a line has the line as its numeral. -/
theorem take_line {v : Str} (hu : u = l ++ (crlf ++ v)) : u.take (l.length + 2) = l ++ crlf := by
  rw [hu, ← List.append_assoc, List.take_left']
  simp [crlf]

theorem takes_line {c : Char} (hc : lineType c = some t) (ht : t ≠ .integer) (u : Str) :
    Takes fs c u (Machine.stepLine ⟨fs, some t⟩ t u) := by
  refine takes_onLine fun l v hu hl => ?_
  rw [if_neg ht]
  refine takes_emit ?_
  rw [take_line hu]
  exact .line hc hl

theorem takes_integer (u : Str) :
    Takes fs ':' u (Machine.stepLine ⟨fs, some .integer⟩ .integer u) := by
  refine takes_onLine fun l v hu hl => ?_
  rw [if_pos rfl]
  split
  · trivial
  · next z hz =>
    obtain ⟨rfl, h₀, h₁⟩ := string2ll_eq_some_iff.mp hz
    refine takes_emit ?_
    rw [take_line hu]
    exact .integer h₀ h₁

theorem takes_bulk (u : Str) : Takes fs '$' u (Machine.stepBulk ⟨fs, some .string⟩ u) := by
  refine takes_onLine fun l v hu hl => ?_
  split
  · trivial
  · next z hz =>
    obtain ⟨rfl, h₀, h₁⟩ := string2ll_eq_some_iff.mp hz
    split_ifs with hrange hnil hroom
    · trivial
    · refine takes_emit ?_
      rw [take_line hu, hnil]
      exact .nilString
    · refine takes_emit ?_
      -- the string, and two bytes behind it
      obtain ⟨n, rfl⟩ : ∃ n : ℕ, z = n := ⟨z.toNat, by omega⟩
      have hhead : u.take ((decimal n).length + 2) = header n := take_line hu
      have hsplit : u.take ((decimal n).length + 2 + (n + 2)) = header n ++
          ((u.drop ((decimal n).length + 2)).take n ++
            ((u.drop ((decimal n).length + 2)).drop n).take 2) := by
        rw [List.take_add, hhead, List.take_add]
      rw [Int.toNat_natCast] at hroom ⊢
      have hlen : ((u.drop ((decimal n).length + 2)).take n).length = n := by
        rw [List.length_take, List.length_drop]
        omega
      rw [hsplit]
      have hstring := Wire.string (d := fs.length) (s := (u.drop ((decimal n).length + 2)).take n)
        (e := ((u.drop ((decimal n).length + 2)).drop n).take 2) (by omega) (by
          rw [List.length_take, List.length_drop, List.length_drop]
          omega)
      rwa [hlen] at hstring
    · trivial

theorem takes_multi (hfs : fs.length ≤ 8) (u : Str) :
    Takes fs '*' u (Machine.stepMulti ⟨fs, some .array⟩ u) := by
  unfold Machine.stepMulti
  split_ifs with hdeep
  · trivial
  have hlt : fs.length < 8 := lt_of_le_of_ne hfs hdeep
  refine takes_onLine fun l v hu hl => ?_
  split
  · trivial
  · next z hz =>
    obtain ⟨rfl, h₀, h₁⟩ := string2ll_eq_some_iff.mp hz
    split_ifs with hrange hnil hpos
    · trivial
    · refine takes_emit ?_
      rw [take_line hu, hnil]
      exact .nilArray hlt
    · obtain ⟨n, rfl⟩ : ∃ n : ℕ, z = n := ⟨z.toNat, by omega⟩
      refine .inr ⟨n, ?_, hlt, by omega, by omega, rfl, rfl⟩
      rw [take_line hu]
      rfl
    · obtain rfl : z = 0 := by omega
      refine takes_emit ?_
      rw [take_line hu]
      have hempty := Wire.array hlt (show ([] : List Reply).length < 2 ^ 31 by decide) .nil
      rwa [List.append_nil] at hempty

theorem takes_step {c : Char} (hc : itemType c = some t) (hfs : fs.length ≤ 8) (u : Str) :
    Takes fs c u (step ⟨fs, some t⟩ u) := by
  unfold itemType at hc
  split_ifs at hc with h₁ h₂ h₃ h₄ h₅
  all_goals
    subst c
    obtain rfl := Option.some.inj hc
  · exact takes_line rfl (by decide) u
  · exact takes_line rfl (by decide) u
  · exact takes_integer u
  · exact takes_bulk u
  · exact takes_multi hfs u

/-- **What has been read is texts of replies**, and what is not complete. -/
theorem Reads.wires (h : Reads step .start u outs m w) :
    ∃ b p q, u = b ++ (p ++ (q ++ w)) ∧ Wires 0 outs b ∧ Pending m.frames p ∧ TypeText m q := by
  induction h with
  | nil => exact ⟨[], [], [], rfl, .nil, .nil, rfl⟩
  | @snoc outs m w n m' o _ hs ih =>
    obtain ⟨b, p, q, rfl, hb, hp, hq⟩ := ih
    rcases m with ⟨fs, _ | t⟩
    · -- the type of the next item
      obtain rfl : q = [] := hq
      rcases w with _ | ⟨c, w⟩
      · exact absurd hs (by simp [step])
      · cases hc : itemType c with
        | none => exact absurd hs (by simp [step, hc])
        | some t =>
          obtain ⟨rfl, rfl, rfl⟩ : 1 = n ∧ (⟨fs, some t⟩ : Machine) = m' ∧ none = o := by
            simpa [step, hc] using hs
          exact ⟨b, p, [c], by simp, by simpa using hb, hp, c, hc, rfl⟩
    · obtain ⟨c, hc, rfl⟩ := hq
      have htakes := takes_step hc hp.length_le w
      rw [hs] at htakes
      rcases htakes with ⟨r, hr, rfl, rfl⟩ | ⟨k, hk, hlt, hpos, hmax, rfl, rfl⟩
      · rcases hp.finish hr with ⟨ho, hp'⟩ | ⟨r', hfin, hr'⟩
        · exact ⟨b, p ++ (c :: w.take n), [], by simp, by simpa [ho] using hb, hp', rfl⟩
        · rw [hfin]
          exact ⟨b ++ (p ++ (c :: w.take n)), [], [], by simp, hb.snoc hr', .nil, rfl⟩
      · have hopen := Pending.cons (f := ⟨k, []⟩) hp hlt hpos hmax .nil
        refine ⟨b, p ++ (c :: w.take n), [], by simp, by simpa using hb, ?_, rfl⟩
        rw [hk]
        simpa using hopen

end

end Hiredis

end BackendStudy
