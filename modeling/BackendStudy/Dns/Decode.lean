import BackendStudy.Dns.Encoding
import Mathlib.Data.List.TakeWhile

/-!
# What the parser makes of a response

A response is described by its bytes at positions: an answer is the name of its owner with fixed
fields and data behind it (`BackendStudy.Dns.Answer`).

The parser decodes the names that it follows (`BackendStudy.Dns.Follows.yields`). It takes the
owner of an answer for two bytes whatever it is, and passes the data of an answer only where it
knows the type. So it finds the next answer when the owner is a bare pointer, and the type is known
or there is no data (`BackendStudy.Dns.Answer.Readable`), and from there on it decodes the whole
response (`BackendStudy.Dns.dnsParseResponse_decodes`).
-/

namespace BackendStudy

namespace Dns

open Wire Fuel Filter

/-! ### Responses -/

/-- A question. -/
structure Question where
  /-- The labels of the name. -/
  labels : List (List UInt8)
  /-- The type. -/
  qtype : ℕ
  /-- The class. -/
  qclass : ℕ

/-- The bytes of a question. -/
def Question.bytes (x : Question) : List UInt8 :=
  Encoding.bytes ⟨x.labels, none⟩ ++ (wordBytes x.qtype ++ wordBytes x.qclass)

/-- An answer, with the name that its owner spells. -/
structure Answer where
  /-- The owner as it is encoded. -/
  owner : Encoding
  /-- The labels of its name. -/
  name : List (List UInt8)
  /-- The type. -/
  type : ℕ
  /-- The class. -/
  cls : ℕ
  /-- The time to live. -/
  ttl : ℕ
  /-- The data. -/
  rdata : List UInt8

/-- The fields between the owner and the data. -/
def Answer.fields (a : Answer) : List UInt8 :=
  wordBytes a.type ++ (wordBytes a.cls ++ (wordBytes (a.ttl / 65536) ++
    (wordBytes (a.ttl % 65536) ++ wordBytes a.rdata.length)))

/-- The bytes of an answer. -/
def Answer.bytes (a : Answer) : List UInt8 := a.owner.bytes ++ (a.fields ++ a.rdata)

/-- **A well-formed answer** at a position of a message. -/
structure Answer.WellFormed (msg : List UInt8) (p : ℕ) (a : Answer) : Prop where
  place : At msg p a.bytes
  owner : a.owner.Valid
  name : Spells msg p a.name
  short : (dotted a.name).length ≤ 127
  numbers : a.type < 65536 ∧ a.cls < 65536 ∧ a.ttl < 4294967296 ∧ a.rdata.length < 65536
  cname : a.type = dnsCname → ∃ labels,
    Spells msg (p + (a.owner.bytes.length + 10)) labels ∧ (dotted labels).length ≤ 127

/-- **An answer that the parser reads right** at a position of a message: the owner is a bare
pointer, the parser follows its name and the name in the data of an alias, and the name of an
address has no zeros. -/
structure Answer.Readable (msg : List UInt8) (p : ℕ) (a : Answer) : Prop where
  bare : ∃ o, a.owner = ⟨[], some o⟩
  name : Follows msg p a.name
  text : a.type = dnsHost → a.rdata.length = 4 → 0 ∉ dotted a.name
  cname : a.type = dnsCname → ∃ labels, Follows msg (p + 12) labels ∧ (dotted labels).length ≤ 127

/-- The entry of an answer, if it is an address of four bytes. -/
def Answer.item? (a : Answer) : Option DnsItem :=
  if a.type = dnsHost ∧ a.rdata.length = 4 then some ⟨dotted a.name, inetNtop a.rdata⟩ else none

/-- Something holds of the answers that stand one behind the other from a position on. -/
def AnswersAt (P : ℕ → Answer → Prop) : ℕ → List Answer → Prop
  | _, [] => True
  | p, a :: answers => P p a ∧ AnswersAt P (p + a.bytes.length) answers

/-- A response. -/
structure Response where
  /-- The identification. -/
  id : ℕ
  /-- The flags. -/
  flags : ℕ
  /-- The questions. -/
  questions : List Question
  /-- The answers. -/
  answers : List Answer
  /-- The number of authority records. -/
  nscount : ℕ
  /-- The number of additional records. -/
  arcount : ℕ

/-- The bytes of the header. -/
def Response.header (r : Response) : List UInt8 :=
  wordBytes r.id ++ (wordBytes r.flags ++ (wordBytes r.questions.length ++
    (wordBytes r.answers.length ++ (wordBytes r.nscount ++ wordBytes r.arcount))))

/-- Where the answers begin. -/
def Response.start (r : Response) : ℕ := 12 + (r.questions.flatMap Question.bytes).length

/-- **A message that is a response.** What stands behind the answers does not matter. -/
structure Response.WellFormed (msg : List UInt8) (r : Response) : Prop where
  place : At msg 0 (r.header ++ r.questions.flatMap Question.bytes)
  counts : r.questions.length < 65536 ∧ r.answers.length < 65536
  questions : ∀ x ∈ r.questions, Encoding.Valid ⟨x.labels, none⟩
  answers : AnswersAt (Answer.WellFormed msg) r.start r.answers

/-- **A response that the parser reads right**: it does so with each answer, and each answer but
the last has a type that it knows, or no data. -/
structure Response.Readable (msg : List UInt8) (r : Response) : Prop where
  answers : AnswersAt (Answer.Readable msg) r.start r.answers
  known : ∀ a ∈ r.answers.dropLast, a.type = dnsCname ∨ a.type = dnsHost ∨ a.rdata = []

/-- **What a response says**: the addresses of four bytes, in order, with their names. -/
def Response.items (r : Response) : List DnsItem := r.answers.filterMap Answer.item?

/-- The entries with that of one more answer. -/
def Found.add (found : Found) (a : Answer) : Found :=
  match a.item? with
  | some item => ⟨found.cnt + 1, found.list ++ [item]⟩
  | none => found

section

variable {msg : List UInt8} {p : ℕ} {labels : List (List UInt8)} {a : Answer} {r : Response}

/-! ### Questions -/

theorem labelsEnd_of_at (hl : ∀ l ∈ labels, 1 ≤ l.length ∧ l.length ≤ 63)
    (hat : At msg p (labels.flatMap labelBytes ++ [0])) :
    LabelsEnd msg p (p + (labels.flatMap labelBytes ++ [0]).length) := by
  induction labels generalizing p with
  | nil => exact .zero (at_cons.mp hat).1
  | cons l labels ih =>
    have hvalid := hl l List.mem_cons_self
    rw [List.flatMap_cons, List.append_assoc] at hat ⊢
    obtain ⟨hlabel, hrest⟩ := at_append.mp hat
    have hflag := toNat_length hvalid.2
    have hne : UInt8.ofNat l.length ≠ 0 := ofNat_ne_zero hvalid.1 (by omega)
    refine .label (at_cons.mp hlabel).1 hne ?_
    have hends := ih (fun l hm => hl l (List.mem_cons_of_mem _ hm)) hrest
    rw [Nat.add_assoc] at hends
    rw [hflag, List.length_append]
    exact hends

theorem questionsEnd_of_at {questions : List Question}
    (hvalid : ∀ x ∈ questions, Encoding.Valid ⟨x.labels, none⟩)
    (hat : At msg p (questions.flatMap Question.bytes)) :
    QuestionsEnd msg questions.length p (p + (questions.flatMap Question.bytes).length) := by
  induction questions generalizing p with
  | nil => rfl
  | cons x questions ih =>
    rw [List.flatMap_cons] at hat ⊢
    obtain ⟨hx, hrest⟩ := at_append.mp hat
    have hends := ih (fun y hy => hvalid y (List.mem_cons_of_mem _ hy)) hrest
    have hlen : p + x.bytes.length = p + (x.labels.flatMap labelBytes ++ [0]).length + 4 :=
      congrArg (p + ·) List.length_append
    refine ⟨_, @labelsEnd_of_at msg p x.labels (hvalid x List.mem_cons_self).label
      (at_append.mp hx).1, ?_⟩
    rw [← hlen, List.length_append, ← Nat.add_assoc]
    exact hends

/-! ### Answers -/

theorem cString_eq {out : List UInt8} (h : 0 ∉ out) : cString out = out := by
  refine List.takeWhile_eq_self_iff.mpr fun b hb => ?_
  simpa using fun he : b = 0 => h (he ▸ hb)

/-- The fields of an answer behind a bare pointer. -/
theorem Answer.WellFormed.fields (hw : a.WellFormed msg p) (hlen : a.owner.bytes.length = 2) :
    be16 Fault.outOfRange msg (p + 2) = .ok a.type ∧
      be16 Fault.outOfRange msg (p + 6) = .ok (a.ttl / 65536) ∧
      be16 Fault.outOfRange msg (p + 10) = .ok a.rdata.length ∧ At msg (p + 12) a.rdata := by
  obtain ⟨htype, -, httl, hdata⟩ := hw.numbers
  have hat := (at_append.mp hw.place).2
  rw [hlen] at hat
  obtain ⟨hfields, hrdata⟩ := at_append.mp hat
  obtain ⟨h₁, h⟩ := at_append.mp hfields
  obtain ⟨-, h⟩ := at_append.mp h
  obtain ⟨h₂, h⟩ := at_append.mp h
  obtain ⟨-, h₃⟩ := at_append.mp h
  exact ⟨h₁.be16_eq htype, h₂.be16_eq (by omega), h₃.be16_eq hdata, hrdata⟩

/-- **One answer is read right.** The parser finds its end, unless it has data of a type that the
parser does not know. -/
theorem parseAnswer_decodes (hw : a.WellFormed msg p) (hr : a.Readable msg p) (found : Found) :
    ∃ q, Yields (fun n => parseAnswer n msg p found) (q, found.add a) ∧
      (a.type = dnsCname ∨ a.type = dnsHost ∨ a.rdata = [] → q = p + a.bytes.length) := by
  -- the owner is a bare pointer, so that the fields start at a fixed place behind it
  obtain ⟨o, ho⟩ := hr.bare
  have hlen : a.owner.bytes.length = 2 := by rw [ho]; rfl
  obtain ⟨htype, httl, hdata, hrdata⟩ := hw.fields hlen
  have hend : p + a.bytes.length = p + 12 + a.rdata.length := by
    rw [Answer.bytes, List.length_append, List.length_append, hlen]
    change p + (2 + (10 + _)) = _
    omega
  have hname := @Follows.yields msg [] _ p hr.name hw.short
  -- what is left is the branch on the type, behind the name and the fields
  suffices hrest : ∃ q, Yields (fun n =>
      answerData n msg (p + 12) found (dotted a.name) a.type a.rdata.length) (q, found.add a) ∧
        (a.type = dnsCname ∨ a.type = dnsHost ∨ a.rdata = [] → q = p + 12 + a.rdata.length) by
    obtain ⟨q, ⟨n, hn⟩, hq⟩ := hrest
    refine ⟨q, (stable_dnsParseName msg p (Nat.zero_le _)).yields_bind hname
      (stable_answerRest msg p found _) ⟨n, ?_⟩, fun h => (hq h).trans hend.symm⟩
    simp only [htype, httl, hdata, Slots.ok_bind]
    exact hn
  unfold answerData
  by_cases hc : a.type = dnsCname
  · -- an alias
    obtain ⟨labels, hfollows, hshort⟩ := hr.cname hc
    obtain ⟨n, hn⟩ := @Follows.yields msg [] _ (p + 12) hfollows hshort
    have hadd : found.add a = found := by simp [Found.add, Answer.item?, hc, dnsCname, dnsHost]
    exact ⟨_, ⟨n, by simp only [hc, if_true, hn, Slots.ok_bind, hadd]⟩, fun _ => rfl⟩
  by_cases hh : a.type = dnsHost
  · by_cases hfour : a.rdata.length = 4
    · -- an address
      have hslice := hrdata.slice_eq (e := Fault.outOfRange) (List.ne_nil_of_length_pos (by omega))
      have hadd : found.add a = ⟨found.cnt + 1, found.list ++
          [⟨cString (dotted a.name), inetNtop a.rdata⟩]⟩ := by
        rw [cString_eq (hr.text hh hfour)]
        simp [Found.add, Answer.item?, hh, hfour]
      rw [hfour] at hslice
      refine ⟨_, ⟨0, ?_⟩, fun _ => rfl⟩
      simp only [if_neg hc, if_pos hh, hfour, if_true, hslice, Slots.ok_bind, hadd]
    -- an address of another length is not taken
    · have hadd : found.add a = found := by simp [Found.add, Answer.item?, hfour]
      refine ⟨_, ⟨0, ?_⟩, fun _ => rfl⟩
      simp only [if_neg hc, if_pos hh, if_neg hfour, hadd]
  · -- a type that the parser does not know
    have hadd : found.add a = found := by simp [Found.add, Answer.item?, hh]
    refine ⟨p + 12, ⟨0, ?_⟩, fun h => ?_⟩
    · simp only [if_neg hc, if_neg hh, hadd]
    · simp [(h.resolve_left hc).resolve_left hh]

theorem parseAnswers_decodes {answers : List Answer}
    (hw : AnswersAt (Answer.WellFormed msg) p answers)
    (hr : AnswersAt (Answer.Readable msg) p answers)
    (hknown : ∀ a ∈ answers.dropLast, a.type = dnsCname ∨ a.type = dnsHost ∨ a.rdata = [])
    (found : Found) : Yields (fun n => parseAnswers n msg answers.length p found)
      (answers.foldl Found.add found) := by
  induction answers generalizing p found with
  | nil => exact ⟨0, rfl⟩
  | cons a answers ih =>
    obtain ⟨q, hq, hend⟩ := parseAnswer_decodes hw.1 hr.1 found
    refine (stable_parseAnswer msg p found).yields_bind hq (stable_parseAnswers msg _ _ _) ?_
    cases answers with
    | nil => exact ⟨0, rfl⟩
    | cons b answers =>
      rw [List.dropLast_cons_of_ne_nil (by simp)] at hknown
      rw [hend (hknown a List.mem_cons_self)]
      exact ih hw.2 hr.2 (fun c hc => hknown c (List.mem_cons_of_mem _ hc)) _

theorem foldl_add (answers : List Answer) (found : Found) : answers.foldl Found.add found =
    ⟨found.cnt + (answers.filterMap Answer.item?).length,
      found.list ++ answers.filterMap Answer.item?⟩ := by
  induction answers generalizing found with
  | nil => simp
  | cons a answers ih =>
    rw [List.foldl_cons, ih, List.filterMap_cons, Found.add]
    cases a.item? with
    | none => rfl
    | some item =>
      simp
      omega

/-- **A readable response is decoded**: the parser returns the addresses that the response says,
in order, and their number. -/
theorem dnsParseResponse_decodes (hw : r.WellFormed msg) (hr : r.Readable msg) :
    ∀ᶠ n in atTop, dnsParseResponse n msg = .ok ⟨r.items.length, r.items⟩ := by
  obtain ⟨hplace, hquestions⟩ := at_append.mp hw.place
  obtain ⟨-, h⟩ := at_append.mp hplace
  obtain ⟨-, h⟩ := at_append.mp h
  obtain ⟨hqd, h⟩ := at_append.mp h
  obtain ⟨han, -⟩ := at_append.mp h
  have hqd' := hqd.be16_eq (e := Fault.outOfRange) hw.counts.1
  have han' := han.be16_eq (e := Fault.outOfRange) hw.counts.2
  have hskip := skipQuestions_yields_iff.mpr (questionsEnd_of_at hw.questions hquestions)
  have hanswers := parseAnswers_decodes hw.answers hr.answers hr.known ⟨0, []⟩
  rw [foldl_add] at hanswers
  filter_upwards [(stable_skipQuestions msg _ _).eventually hskip,
    (stable_parseAnswers msg _ _ _).eventually hanswers] with n hn hn'
  have hn₁ : skipQuestions n msg r.questions.length 12 = .ok r.start := hn
  simp only [dnsParseResponse, show be16 Fault.outOfRange msg 4 = .ok r.questions.length from hqd',
    show be16 Fault.outOfRange msg 6 = .ok r.answers.length from han', Slots.ok_bind, hn₁, hn']
  simp [Response.items]

end

/-- The bytes of a response, without further records. -/
def Response.bytes (r : Response) : List UInt8 :=
  r.header ++ r.questions.flatMap Question.bytes ++ r.answers.flatMap Answer.bytes

/-- The address 1.2.3.4 for the name `a`, with an encoding of its owner. -/
def sampleAnswer (owner : Encoding) : Answer := ⟨owner, [[97]], dnsHost, 1, 60, [1, 2, 3, 4]⟩

/-- A response to a question for the name `a`, of which the name stands at the position 12. -/
def sampleResponse (answers : List Answer) : Response :=
  ⟨1, 0x8180, [⟨[[97]], 1, 1⟩], answers, 0, 0⟩

/-- The name `a` is another one for `b.a`, which has an address, and so has `a`. -/
def aliasAnswers : List Answer :=
  [⟨⟨[], some 12⟩, [[97]], dnsCname, 1, 60, [1, 98, 192, 12]⟩,
    ⟨⟨[], some 31⟩, [[98], [97]], dnsHost, 1, 60, [5, 6, 7, 8]⟩, sampleAnswer ⟨[], some 12⟩]

/-- A response whose second answer has a pointer into the data of the first. -/
theorem dnsParseResponse_decodes_sample : ∀ᶠ n in atTop,
    dnsParseResponse n (sampleResponse aliasAnswers).bytes =
      .ok ⟨2, [⟨[98, 46, 97], ['5', '.', '6', '.', '7', '.', '8']⟩,
        ⟨[97], ['1', '.', '2', '.', '3', '.', '4']⟩]⟩ := by
  have hname : Encoding.Valid ⟨[[97]], none⟩ := ⟨by simp, by simp⟩
  have htwelve : Encoding.Valid ⟨[], some 12⟩ := ⟨by simp, by simp⟩
  have halias : Encoding.Valid ⟨[[98]], some 12⟩ := ⟨by simp, by simp⟩
  have hdata : Encoding.Valid ⟨[], some 31⟩ := ⟨by simp, by simp⟩
  obtain ⟨msg, hmsg⟩ : ∃ msg, msg = (sampleResponse aliasAnswers).bytes := ⟨_, rfl⟩
  -- the names of the question and of the alias
  have hat : At msg 12 (Encoding.bytes ⟨[[97]], none⟩) := by rw [hmsg]; decide
  have hat' : At msg 31 (Encoding.bytes ⟨[[98]], some 12⟩) := by rw [hmsg]; decide
  have hspells : Spells msg 31 [[98], [97]] := .jump halias hat' (.plain hname hat)
  have hfollows : Follows msg 31 [[98], [97]] :=
    .jump halias hat' (by decide) (Or.inr (by simp)) (.plain hname hat)
  have hone : At msg 19 (Encoding.bytes ⟨[], some 12⟩) := by rw [hmsg]; decide
  have htwo : At msg 35 (Encoding.bytes ⟨[], some 31⟩) := by rw [hmsg]; decide
  have hthree : At msg 51 (Encoding.bytes ⟨[], some 12⟩) := by rw [hmsg]; decide
  rw [← hmsg]
  refine dnsParseResponse_decodes (r := sampleResponse aliasAnswers)
    ⟨by rw [hmsg]; decide, by decide, by simpa [sampleResponse] using hname,
      ⟨?_, ?_, ?_, trivial⟩⟩ ⟨⟨?_, ?_, ?_, trivial⟩, by decide⟩
  · exact ⟨by rw [hmsg]; decide, htwelve, .jump htwelve hone (.plain hname hat), by decide,
      by decide, fun _ => ⟨_, hspells, by decide⟩⟩
  · exact ⟨by rw [hmsg]; decide, hdata, .jump hdata htwo hspells, by decide, by decide,
      fun h => absurd h (by decide)⟩
  · exact ⟨by rw [hmsg]; decide, htwelve, .jump htwelve hthree (.plain hname hat), by decide,
      by decide, fun h => absurd h (by decide)⟩
  · exact ⟨⟨12, rfl⟩, .jump htwelve hone (by decide) (Or.inl rfl) (.plain hname hat),
      fun h => absurd h (by decide), fun _ => ⟨_, hfollows, by decide⟩⟩
  · exact ⟨⟨31, rfl⟩, .jump hdata htwo (by decide) (Or.inl rfl) hfollows, fun _ _ => by decide,
      fun h => absurd h (by decide)⟩
  · exact ⟨⟨12, rfl⟩, .jump htwelve hthree (by decide) (Or.inl rfl) (.plain hname hat),
      fun _ _ => by decide, fun h => absurd h (by decide)⟩

/-- **Two ways to lose an address**: its owner is spelled out, or an answer of another type stands
before it. -/
theorem not_decodes_sample :
    (∃ r : Response, r.WellFormed r.bytes ∧
      r.items = [⟨[97], ['1', '.', '2', '.', '3', '.', '4']⟩] ∧
      ∀ᶠ n in atTop, dnsParseResponse n r.bytes = .ok ⟨0, []⟩) ∧
    ∃ r : Response, r.WellFormed r.bytes ∧
      r.items = [⟨[97], ['1', '.', '2', '.', '3', '.', '4']⟩] ∧
      ∀ᶠ n in atTop, dnsParseResponse n r.bytes = .ok ⟨0, []⟩ := by
  have hvalid : Encoding.Valid ⟨[], some 12⟩ := ⟨by simp, by simp⟩
  have hvalid' : Encoding.Valid ⟨[[97]], none⟩ := ⟨by simp, by simp⟩
  constructor
  · refine ⟨sampleResponse [sampleAnswer ⟨[[97]], none⟩], ⟨by decide, by decide,
      by simpa [sampleResponse] using hvalid', ⟨?_, trivial⟩⟩, by decide,
      (stable_dnsParseResponse _).eventually ⟨10, by decide +kernel⟩⟩
    exact ⟨by decide, hvalid', .plain hvalid' (by decide), by decide, by decide,
      fun h => absurd h (by decide)⟩
  · refine ⟨sampleResponse [⟨⟨[], some 12⟩, [[97]], 28, 1, 60, List.replicate 16 0⟩,
      sampleAnswer ⟨[], some 12⟩], ⟨by decide, by decide,
      by simpa [sampleResponse] using hvalid', ⟨?_, ?_, trivial⟩⟩, by decide,
      (stable_dnsParseResponse _).eventually ⟨10, by decide +kernel⟩⟩
    · exact ⟨by decide, hvalid, .jump hvalid (by decide) (.plain hvalid' (by decide)), by decide,
        by decide, fun h => absurd h (by decide)⟩
    · exact ⟨by decide, hvalid, .jump hvalid (by decide) (.plain hvalid' (by decide)), by decide,
        by decide, fun h => absurd h (by decide)⟩

end Dns

end BackendStudy
