import BackendStudy.Dns.Name

/-!
# Encoded names

A name is encoded as labels, with the end or a pointer to another name behind them
(`BackendStudy.Dns.Encoding`, `BackendStudy.Dns.Spells`), and it is written with dots between its
labels (`BackendStudy.Dns.dotted`).

Two things keep the parser from writing a name as it is. It takes the position that a pointer
leads to from the lower of the two bytes, so it leaves a name that goes on behind the first 256
bytes of the message. And it writes the dot behind a label as soon as another byte than zero
follows, which may be a pointer that leads to no more labels. A name for which neither happens
(`BackendStudy.Dns.Follows`) is decoded, and of the names without a pointer behind the first 256
bytes (`BackendStudy.Dns.Strays`) no other one is (`BackendStudy.Dns.parseName_decodes`).
-/

namespace BackendStudy

namespace Dns

open Wire Slots Fuel Filter

/-- A label with its length in front of it. -/
def labelBytes (l : List UInt8) : List UInt8 := UInt8.ofNat l.length :: l

/-- **A name as it is encoded**: labels, and behind them the end or a pointer. -/
structure Encoding where
  /-- The labels. -/
  labels : List (List UInt8)
  /-- The position that the pointer leads to. -/
  pointer : Option ℕ

/-- What stands behind the labels. -/
def Encoding.tail (x : Encoding) : List UInt8 :=
  match x.pointer with
  | none => [0]
  | some o => [UInt8.ofNat (192 + o / 256), UInt8.ofNat o]

/-- The bytes of an encoded name. -/
def Encoding.bytes (x : Encoding) : List UInt8 := x.labels.flatMap labelBytes ++ x.tail

/-- A label has between one and 63 bytes, and a pointer is a number of 14 bits. -/
structure Encoding.Valid (x : Encoding) : Prop where
  label : ∀ l ∈ x.labels, 1 ≤ l.length ∧ l.length ≤ 63
  pointer : ∀ o ∈ x.pointer, o < 16384

/-- **The name at a position** of a message. -/
inductive Spells (msg : List UInt8) : ℕ → List (List UInt8) → Prop
  /-- A name without a pointer. -/
  | plain {p : ℕ} {labels : List (List UInt8)} : Encoding.Valid ⟨labels, none⟩ →
      At msg p (Encoding.bytes ⟨labels, none⟩) → Spells msg p labels
  /-- A name that goes on elsewhere. -/
  | jump {p o : ℕ} {labels rest : List (List UInt8)} : Encoding.Valid ⟨labels, some o⟩ →
      At msg p (Encoding.bytes ⟨labels, some o⟩) → Spells msg o rest →
      Spells msg p (labels ++ rest)

/-- **A name that the parser follows**: its pointers fit into one byte, and behind labels they lead
to more labels. -/
inductive Follows (msg : List UInt8) : ℕ → List (List UInt8) → Prop
  /-- A name without a pointer. -/
  | plain {p : ℕ} {labels : List (List UInt8)} : Encoding.Valid ⟨labels, none⟩ →
      At msg p (Encoding.bytes ⟨labels, none⟩) → Follows msg p labels
  /-- A name that goes on elsewhere. -/
  | jump {p o : ℕ} {labels rest : List (List UInt8)} : Encoding.Valid ⟨labels, some o⟩ →
      At msg p (Encoding.bytes ⟨labels, some o⟩) → o < 256 → (labels = [] ∨ rest ≠ []) →
      Follows msg o rest → Follows msg p (labels ++ rest)

/-- A name that comes to a pointer behind the first 256 bytes. -/
inductive Strays (msg : List UInt8) : ℕ → List (List UInt8) → Prop
  /-- At its first pointer. -/
  | here {p o : ℕ} {labels rest : List (List UInt8)} : Encoding.Valid ⟨labels, some o⟩ →
      At msg p (Encoding.bytes ⟨labels, some o⟩) → 256 ≤ o → Spells msg o rest →
      Strays msg p (labels ++ rest)
  /-- Later on. -/
  | later {p o : ℕ} {labels rest : List (List UInt8)} : Encoding.Valid ⟨labels, some o⟩ →
      At msg p (Encoding.bytes ⟨labels, some o⟩) → o < 256 → Strays msg o rest →
      Strays msg p (labels ++ rest)

/-- A name with dots between its labels. -/
def dotted (labels : List (List UInt8)) : List UInt8 := List.intercalate [46] labels

/-- The labels of a name in front of a byte: a dot stands behind each, but for the last one of a
name that ends. -/
def glued (b : UInt8) (labels : List (List UInt8)) : List UInt8 :=
  if b = 0 then dotted labels else labels.flatMap fun l => l ++ [46]

section

variable {msg out l s : List UInt8} {labels rest : List (List UInt8)} {p o : ℕ} {b : UInt8}

theorem isPointer_small {n : ℕ} (h : n ≤ 63) : isPointer n = false := by
  have hall : ∀ k < 64, isPointer k = false := by decide
  exact hall n (by omega)

theorem isPointer_large {n : ℕ} (h : n < 64) : isPointer (192 + n) = true := by
  have hall : ∀ k < 64, isPointer (192 + k) = true := by decide
  exact hall n h

theorem toNat_length (h : l.length ≤ 63) : (UInt8.ofNat l.length).toNat = l.length :=
  UInt8.toNat_ofNat_of_lt' (h.trans_lt (by decide))

theorem ofNat_ne_zero {n : ℕ} (hpos : 0 < n) (hlt : n < 256) : UInt8.ofNat n ≠ 0 := by
  intro h
  have hzero := UInt8.toNat_ofNat_of_lt' hlt
  rw [h, show (0 : UInt8).toNat = 0 from rfl] at hzero
  omega

theorem glued_cons (hne : labels ≠ []) : glued b (l :: labels) = l ++ [46] ++ glued b labels := by
  unfold glued dotted
  split_ifs
  · rw [List.intercalate_cons_of_ne_nil hne]
  · simp

theorem dotted_append (h : labels = [] ∨ rest ≠ []) :
    dotted (labels ++ rest) = (labels.flatMap fun l => l ++ [46]) ++ dotted rest := by
  rcases h with rfl | hne
  · rfl
  · induction labels with
    | nil => rfl
    | cons l labels ih =>
      rw [List.flatMap_cons, List.append_assoc, ← ih, List.cons_append]
      exact List.intercalate_cons_of_ne_nil (by simp [hne])


theorem glued_nil : glued b [] = [] := by
  unfold glued dotted
  simp

theorem glued_singleton : glued b [l] = l ++ dot b := by
  unfold glued dotted dot
  split_ifs
  · simp
  · simp

/-! ### How an encoded name reads -/

theorem reads_zero_iff (hb : msg[p]? = some 0) : Reads msg p s ↔ s = [] := by
  constructor
  · intro h
    exact h.unique (.zero hb)
  · rintro rfl
    exact .zero hb

/-- One label. -/
theorem reads_label_iff {tail : List UInt8} (hl : 1 ≤ l.length ∧ l.length ≤ 63)
    (hat : At msg p (labelBytes l ++ b :: tail)) :
    Reads msg p s ↔ ∃ s', s = l ++ (dot b ++ s') ∧ Reads msg (p + (l.length + 1)) s' := by
  obtain ⟨hhead, hrest⟩ := at_cons.mp hat
  obtain ⟨hlabel, htail⟩ := at_append.mp hrest
  have hlen := toNat_length hl.2
  have hzero : UInt8.ofNat l.length ≠ 0 := ofNat_ne_zero hl.1 (by omega)
  have hptr : isPointer (UInt8.ofNat l.length).toNat = false := by
    rw [hlen]
    exact isPointer_small hl.2
  have hpos : p + 1 + (UInt8.ofNat l.length).toNat = p + (l.length + 1) := by omega
  have hnext : msg[p + 1 + (UInt8.ofNat l.length).toNat]? = some b := by
    rw [hlen]
    exact (at_cons.mp htail).1
  constructor
  · rintro (hb | ⟨hb, hptr', -, -⟩ | ⟨hb, -, -, hl', hlen', hnext', hs⟩)
    · exact absurd (Option.some.inj (hhead.symm.trans hb)) hzero
    · obtain rfl := Option.some.inj (hhead.symm.trans hb)
      exact absurd (hptr.symm.trans hptr') (by simp)
    · obtain rfl := Option.some.inj (hhead.symm.trans hb)
      obtain rfl := Option.some.inj (hnext.symm.trans hnext')
      obtain rfl := (List.prefix_of_prefix_length_le hlabel hl' (hlen'.trans hlen).ge).eq_of_length
        (hlen'.trans hlen).symm
      rw [hpos] at hs
      exact ⟨_, rfl, hs⟩
  · rintro ⟨s', rfl, hs⟩
    rw [← hpos] at hs
    exact .piece hhead hzero hptr hlabel hlen.symm hnext hs

/-- The labels of a name, up to what stands behind them. -/
theorem reads_labels_iff {tail : List UInt8} (hl : ∀ l ∈ labels, 1 ≤ l.length ∧ l.length ≤ 63)
    (hat : At msg p (labels.flatMap labelBytes ++ b :: tail)) : Reads msg p s ↔
      ∃ s', s = glued b labels ++ s' ∧ Reads msg (p + (labels.flatMap labelBytes).length) s' := by
  induction labels generalizing p s with
  | nil => simp [glued_nil]
  | cons l labels ih =>
    have hvalid := hl l List.mem_cons_self
    have hvalid' : ∀ l ∈ labels, 1 ≤ l.length ∧ l.length ≤ 63 :=
      fun l hm => hl l (List.mem_cons_of_mem _ hm)
    rw [List.flatMap_cons, List.append_assoc] at hat
    have hrest : At msg (p + (l.length + 1)) (labels.flatMap labelBytes ++ b :: tail) :=
      (at_append.mp hat).2
    have hlen : p + ((l :: labels).flatMap labelBytes).length =
        p + (l.length + 1) + (labels.flatMap labelBytes).length := by
      rw [List.flatMap_cons, List.length_append, Nat.add_assoc]
      rfl
    rw [hlen]
    cases labels with
    | nil =>
      rw [reads_label_iff hvalid hat, glued_singleton]
      simp
    | cons l' labels =>
      -- the next byte is the length of the next label
      have hl' := hvalid' l' List.mem_cons_self
      have hdot : dot (UInt8.ofNat l'.length) = [46] :=
        if_neg (ofNat_ne_zero hl'.1 (by omega))
      rw [reads_label_iff hvalid hat, hdot, glued_cons (by simp)]
      constructor
      · rintro ⟨s₁, rfl, hs₁⟩
        obtain ⟨s₂, rfl, hs₂⟩ := (ih hvalid' hrest).mp hs₁
        exact ⟨s₂, by simp, hs₂⟩
      · rintro ⟨s₂, rfl, hs₂⟩
        exact ⟨glued b (l' :: labels) ++ s₂, by simp, (ih hvalid' hrest).mpr ⟨s₂, rfl, hs₂⟩⟩

/-- A name that ends reads as the name with its dots. -/
theorem reads_plain_iff (hvalid : Encoding.Valid ⟨labels, none⟩)
    (hat : At msg p (Encoding.bytes ⟨labels, none⟩)) : Reads msg p s ↔ s = dotted labels := by
  have hend : msg[p + (labels.flatMap labelBytes).length]? = some 0 :=
    (at_cons.mp (at_append.mp hat).2).1
  rw [reads_labels_iff hvalid.label hat]
  constructor
  · rintro ⟨s', rfl, hs'⟩
    rw [(reads_zero_iff hend).mp hs', List.append_nil]
    rfl
  · rintro rfl
    exact ⟨[], (List.append_nil _).symm, .zero hend⟩

/-- **A pointer is followed by its lower byte**, and behind each label in front of it there is a
dot. -/
theorem reads_jump_iff (hvalid : Encoding.Valid ⟨labels, some o⟩)
    (hat : At msg p (Encoding.bytes ⟨labels, some o⟩)) : Reads msg p s ↔
      ∃ s', s = (labels.flatMap fun l => l ++ [46]) ++ s' ∧ Reads msg (o % 256) s' := by
  have ho : o < 16384 := hvalid.pointer o rfl
  have hbyte : (UInt8.ofNat (192 + o / 256)).toNat = 192 + o / 256 :=
    UInt8.toNat_ofNat_of_lt' (show 192 + o / 256 < 256 by omega)
  have hne : UInt8.ofNat (192 + o / 256) ≠ 0 := ofNat_ne_zero (by omega) (by omega)
  have hptr : isPointer (UInt8.ofNat (192 + o / 256)).toNat = true := by
    rw [hbyte]
    exact isPointer_large (by omega)
  have hlow : (UInt8.ofNat o).toNat = o % 256 := UInt8.toNat_ofNat'
  obtain ⟨hhead, hrest⟩ := at_cons.mp (at_append.mp hat).2
  have hpointer : ∀ s', Reads msg (p + (labels.flatMap labelBytes).length) s' ↔
      Reads msg (o % 256) s' := by
    intro s'
    have hm := (at_cons.mp hrest).1
    constructor
    · rintro (hb | ⟨hb, -, hm', hs⟩ | ⟨hb, -, hptr', -, -, -, -⟩)
      · exact absurd (Option.some.inj (hhead.symm.trans hb)) hne
      · obtain rfl := Option.some.inj (hm.symm.trans hm')
        rwa [hlow] at hs
      · obtain rfl := Option.some.inj (hhead.symm.trans hb)
        exact absurd (hptr.symm.trans hptr') (by simp)
    · intro hs
      exact .jump hhead hptr hm (by rwa [hlow])
  have hglued : glued (UInt8.ofNat (192 + o / 256)) labels =
      labels.flatMap fun l => l ++ [46] := if_neg hne
  simp only [reads_labels_iff hvalid.label hat, hglued, hpointer]

/-- **The names that the parser follows** read as they are. -/
theorem Follows.reads (h : Follows msg p labels) : Reads msg p (dotted labels) := by
  induction h with
  | plain hvalid hat => exact (reads_plain_iff hvalid hat).mpr rfl
  | @jump p o labels rest hvalid hat hsmall hrest _ ih =>
    refine (reads_jump_iff hvalid hat).mpr ⟨_, dotted_append hrest, ?_⟩
    rwa [Nat.mod_eq_of_lt hsmall]

/-- The parser decodes the names that it follows. -/
theorem Follows.yields (h : Follows msg p labels) (hfit : (out ++ dotted labels).length ≤ 127) :
    Yields (fun n => dnsParseName msg n p out) (out ++ dotted labels) := by
  rw [List.length_append] at hfit
  have hsize : (out ++ List.replicate (127 - out.length) 0).length = 127 := by
    rw [List.length_append, List.length_replicate]
    omega
  obtain ⟨k, hk⟩ := @Reads.returns msg out (List.replicate (127 - out.length) 0) _ _ h.reads
    (by rw [List.length_replicate]; omega)
  refine ⟨0 + k, ?_⟩
  change dnsParseName msg (0 + k) p out = _
  rw [dnsParseName_eq hsize, hk 0]
  exact congrArg Except.ok (written_take _ _ _)

/-! ### The names that are decoded -/

/-- **The name is decoded** into a buffer: the text of the name stands at its beginning, the rest
of the buffer is as before, and `*len` is the length of the text. -/
def Decodes (msg : List UInt8) (p : ℕ) (labels : List (List UInt8)) (out : List UInt8) : Prop :=
  ∀ᶠ n in atTop, parseName msg n p 0 (out, 0) =
    .ok (dotted labels ++ out.drop (dotted labels).length, (dotted labels).length)

theorem decodes_iff (hroom : (dotted labels).length ≤ out.length) :
    Decodes msg p labels out ↔ Reads msg p (dotted labels) := by
  constructor
  · intro h
    obtain ⟨n, hn⟩ := h.exists
    obtain ⟨s, hs, hfit, heq⟩ := (@parseName_yields_iff msg [] out p _).mp ⟨n, hn⟩
    rw [written_nil] at heq
    obtain ⟨htext, hlen⟩ := Prod.mk.inj heq
    rw [(List.append_inj htext hlen).1]
    exact hs
  · intro h
    obtain ⟨k, hk⟩ := @Reads.returns msg [] out _ _ h hroom
    refine eventually_atTop.mpr ⟨k, fun n hn => ?_⟩
    have hrun := hk (n - k)
    rwa [Nat.sub_add_cancel hn] at hrun

/-- The dots that end labels are one more than those between them. -/
theorem dotted_dot (hne : labels ≠ []) :
    dotted labels ++ [46] = labels.flatMap fun l => l ++ [46] := by
  obtain ⟨labels, l, rfl⟩ := List.eq_nil_or_concat labels |>.resolve_left hne
  rw [List.concat_eq_append, dotted_append (Or.inr (by simp)), List.flatMap_append,
    List.append_assoc]
  simp [dotted]

/-- A name that reads as it is has been followed all the way. -/
theorem Spells.follows (h : Spells msg p labels) (hnear : ¬Strays msg p labels)
    (hreads : Reads msg p (dotted labels)) : Follows msg p labels := by
  induction h with
  | plain hvalid hat => exact .plain hvalid hat
  | @jump p o labels rest hvalid hat hspells ih =>
    obtain ⟨s', hs', hrest⟩ := (reads_jump_iff hvalid hat).mp hreads
    have hsmall : o < 256 := by
      by_contra hlarge
      exact hnear (.here hvalid hat (not_lt.mp hlarge) hspells)
    rw [Nat.mod_eq_of_lt hsmall] at hrest
    by_cases hmore : labels = [] ∨ rest ≠ []
    · rw [dotted_append hmore] at hs'
      obtain rfl := List.append_cancel_left hs'
      exact .jump hvalid hat hsmall hmore (ih (fun h => hnear (.later hvalid hat hsmall h)) hrest)
    · -- a dot too many
      rw [not_or, not_not] at hmore
      obtain ⟨hne, rfl⟩ := hmore
      rw [← dotted_dot hne, List.append_nil] at hs'
      have hlen := congrArg List.length hs'
      simp only [List.length_append, List.length_singleton] at hlen
      omega

theorem Spells.lt_length (h : Spells msg p labels) : p < msg.length := by
  have hpos : ∀ {x : Encoding}, At msg p x.bytes → p < msg.length := by
    intro x hat
    have hlen := List.IsPrefix.length_le hat
    have htail : 1 ≤ x.tail.length := by
      unfold Encoding.tail
      split <;> simp
    rw [Encoding.bytes, List.length_append, List.length_drop] at hlen
    omega
  cases h with
  | plain _ hat => exact hpos hat
  | jump _ hat _ => exact hpos hat

/-- No name of a message of 256 bytes strays. -/
theorem Strays.lt_length (h : Strays msg p labels) : 256 < msg.length := by
  induction h with
  | here _ _ hfar hspells => exact hfar.trans_lt hspells.lt_length
  | later _ _ _ _ ih => exact ih

/-- A message with a name behind its first 256 bytes and a pointer to it. -/
def farMessage : List UInt8 := List.replicate 256 0 ++ [1, 97, 0, 193, 0]

/-- A message with the name `a`, which goes on with a pointer to an empty name. -/
def rootMessage : List UInt8 := List.replicate 12 0 ++ [0, 1, 97, 192, 12]

/-- **Two names that are not decoded**: the one goes on at the position 256, which is taken for 0,
and the other gets a dot for a pointer with nothing behind it. -/
theorem not_decodes_name :
    (farMessage.length ≤ 1024 ∧ Spells farMessage 259 [[97]] ∧
      At farMessage 259 (Encoding.bytes ⟨[], some 256⟩) ∧
      At farMessage 256 (Encoding.bytes ⟨[[97]], none⟩) ∧
      ¬Decodes farMessage 259 [[97]] (List.replicate 128 0)) ∧
    (rootMessage.length ≤ 1024 ∧ Spells rootMessage 13 [[97]] ∧
      At rootMessage 13 (Encoding.bytes ⟨[[97]], some 12⟩) ∧
      At rootMessage 12 (Encoding.bytes ⟨[], none⟩) ∧
      ¬Decodes rootMessage 13 [[97]] (List.replicate 128 0)) := by
  have hname : Encoding.Valid ⟨[[97]], none⟩ := ⟨by simp, by simp⟩
  constructor
  · have hjump : Encoding.Valid ⟨[], some 256⟩ := ⟨by simp, by simp⟩
    have hat : At farMessage 259 (Encoding.bytes ⟨[], some 256⟩) := by decide +kernel
    have hat' : At farMessage 256 (Encoding.bytes ⟨[[97]], none⟩) := by decide +kernel
    refine ⟨by decide +kernel, .jump hjump hat (.plain hname hat'), hat, hat', fun h => ?_⟩
    have hreads := (decodes_iff (by simp [dotted])).mp h
    -- the bytes read as nothing
    have hempty : Reads farMessage 259 [] :=
      (reads_jump_iff hjump hat).mpr ⟨[], rfl, .zero (by decide +kernel)⟩
    exact absurd (hreads.unique hempty) (by decide)
  · have hjump : Encoding.Valid ⟨[[97]], some 12⟩ := ⟨by simp, by simp⟩
    have hroot : Encoding.Valid ⟨[], none⟩ := ⟨by simp, by simp⟩
    have hat : At rootMessage 13 (Encoding.bytes ⟨[[97]], some 12⟩) := by decide
    have hat' : At rootMessage 12 (Encoding.bytes ⟨[], none⟩) := by decide
    refine ⟨by decide, .jump hjump hat (.plain hroot hat'), hat, hat', fun h => ?_⟩
    have hreads := (decodes_iff (by simp [dotted])).mp h
    -- the bytes read as the name with a dot
    have hdot : Reads rootMessage 13 [97, 46] :=
      (reads_jump_iff hjump hat).mpr ⟨[], rfl, .zero (by decide)⟩
    exact absurd (hreads.unique hdot) (by decide)

/-- **The parser decodes the names that it follows**, into every buffer with room for the text,
and of the names without a pointer behind the first 256 bytes it decodes no others. -/
theorem parseName_decodes (h : Spells msg p labels)
    (hroom : (dotted labels).length ≤ out.length) :
    (Follows msg p labels → Decodes msg p labels out) ∧
      (¬Strays msg p labels → (Decodes msg p labels out ↔ Follows msg p labels)) := by
  rw [decodes_iff hroom]
  exact ⟨Follows.reads, fun hnear => ⟨h.follows hnear, Follows.reads⟩⟩

/-- Three names one behind the other, of which each is the end of the next. -/
def chainMessage : List UInt8 := [1, 98, 0, 1, 97, 192, 0, 2, 99, 100, 192, 3]

/-- A name of three labels, which goes through two pointers. -/
theorem parseName_decodes_sample :
    Decodes chainMessage 7 [[99, 100], [97], [98]] (List.replicate 128 0) := by
  have hname : Encoding.Valid ⟨[[98]], none⟩ := ⟨by simp, by simp⟩
  have hone : Encoding.Valid ⟨[[97]], some 0⟩ := ⟨by simp, by simp⟩
  have htwo : Encoding.Valid ⟨[[99, 100]], some 3⟩ := ⟨by simp, by simp⟩
  have hspells : Spells chainMessage 7 [[99, 100], [97], [98]] :=
    .jump htwo (by decide) (.jump hone (by decide) (.plain hname (by decide)))
  have hfollows : Follows chainMessage 7 [[99, 100], [97], [98]] :=
    .jump htwo (by decide) (by decide) (Or.inr (by simp)) <|
      .jump hone (by decide) (by decide) (Or.inr (by simp)) <| .plain hname (by decide)
  have hnear : ¬Strays chainMessage 7 [[99, 100], [97], [98]] := fun h =>
    absurd h.lt_length (by decide)
  exact ((parseName_decodes hspells (by simp [dotted])).2 hnear).mpr hfollows

end

end Dns

end BackendStudy
