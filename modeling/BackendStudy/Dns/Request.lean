import BackendStudy.Dns.Encoding
import BackendStudy.Lib.Tokens

/-!
# The question of a request

`dns_create_question` allocates a block for the name, of which the size comes from the length of
the hostname: there is a byte more than for each dot and each other character, and one for the
zero at the end. What it writes into the block comes from the tokens between the dots, each with
its length in one byte in front of it (`BackendStudy.Dns.dnsCreateQuestion_ok`). The two fit
together when the hostname is its tokens with single dots between them
(`BackendStudy.Dns.length_tokens_eq_iff`); otherwise the end of the block is left as it has been
allocated. `dns_build_request` copies the whole block.

A hostname is the bytes in front of its terminator. Of the block and of the request it is kept
which bytes have been written (`none` stands for a byte that has not). `strdup` succeeds.
-/

namespace BackendStudy

namespace Dns

open Wire Slots Tokens

/-- `struct dns_header`, with its words as they are sent. -/
structure DnsHeader where
  /-- The identification. -/
  id : ℕ
  /-- The flags. -/
  flags : ℕ
  /-- The number of questions. -/
  qdcount : ℕ
  /-- The number of answers. -/
  ancount : ℕ
  /-- The number of authority records. -/
  nscount : ℕ
  /-- The number of additional records. -/
  arcount : ℕ

/-- `dns_create_header`, with the value of `random`. The host keeps the lower byte of a word first,
and the identification is not brought into the order of the network. -/
def dnsCreateHeader (random : ℕ) : DnsHeader where
  id := random % 256 * 256 + random / 256 % 256
  flags := 0x0100
  qdcount := 1
  ancount := 0
  nscount := 0
  arcount := 0

/-- A header in memory. -/
def DnsHeader.bytes (h : DnsHeader) : List UInt8 :=
  wordBytes h.id ++ (wordBytes h.flags ++ (wordBytes h.qdcount ++ (wordBytes h.ancount ++
    (wordBytes h.nscount ++ wordBytes h.arcount))))

/-- `struct dns_question`, with its words as they are sent. -/
structure DnsQuestion where
  /-- The length of the name. -/
  length : ℕ
  /-- The type. -/
  qtype : ℕ
  /-- The class. -/
  qclass : ℕ
  /-- The block with the name. -/
  qname : List (Option UInt8)

/-- The loop of `dns_create_question` over the tokens, at `qname_p`. -/
def questionLoop (s : List UInt8) (qname : List (Option UInt8)) (pos : ℕ) :
    Except Fault (List (Option UInt8)) :=
  match h : strtok 46 s with
  | none => .ok qname
  | some (token, rest) => do
    have : rest.length < s.length := strtok_lt h
    -- a byte of the length is kept
    let qname ← put .overflow qname pos (some (UInt8.ofNat token.length))
    -- with the terminator of the token
    let qname ← blit .overflow qname (pos + 1) ((token ++ [0]).map some)
    questionLoop rest qname (pos + 1 + token.length)
termination_by s.length

/-- `dns_create_question`: what it returns, and what `question` points to afterwards. A question
may be a null pointer, and the block for the name may not be allocated. -/
def dnsCreateQuestion (question : Option DnsQuestion) (malloc : Bool) (hostname : List UInt8) :
    Except Fault (ℤ × Option DnsQuestion) :=
  match question with
  | none => .ok (-1, none)
  | some _ =>
    if malloc then do
      let qname ← questionLoop hostname (List.replicate (hostname.length + 2) none) 0
      .ok (0, some ⟨hostname.length + 2, 1, 1, qname⟩)
    else .ok (-2, some ⟨0, 0, 0, []⟩)

/-- `dns_build_request`: the length that it returns, and the request. -/
def dnsBuildRequest (header : DnsHeader) (question : DnsQuestion) (request : List (Option UInt8)) :
    Except Fault (ℕ × List (Option UInt8)) := do
  let headerS := 12
  let questionS := question.length + 2 + 2
  let length := questionS + headerS
  let request ← blit .overflow request 0 (header.bytes.map some)
  let offset := headerS
  let request ←
    if question.length ≤ question.qname.length then
      blit .overflow request offset (question.qname.take question.length)
    else .error .outOfRange
  let offset := offset + question.length
  let request ← blit .overflow request offset ((wordBytes question.qtype).map some)
  let offset := offset + 2
  let request ← blit .overflow request offset ((wordBytes question.qclass).map some)
  .ok (length, request)

section

variable {s l : List UInt8} {labels ts : List (List UInt8)} {w r : List (Option UInt8)}
  {question : DnsQuestion} {header : DnsHeader} {request : List (Option UInt8)}

/-! ### The name that is written -/

theorem questionLoop_none (h : strtok 46 s = none) (qname : List (Option UInt8)) (pos : ℕ) :
    questionLoop s qname pos = .ok qname := by
  rw [questionLoop]
  split
  · rfl
  · rename_i h'
    exact absurd (h.symm.trans h') (by simp)

theorem questionLoop_some {rest : List UInt8} (h : strtok 46 s = some (l, rest))
    (qname : List (Option UInt8)) (pos : ℕ) : questionLoop s qname pos = (do
      let qname ← put .overflow qname pos (some (UInt8.ofNat l.length))
      let qname ← blit .overflow qname (pos + 1) ((l ++ [0]).map some)
      questionLoop rest qname (pos + 1 + l.length)) := by
  rw [questionLoop]
  split
  · rename_i h'
    exact absurd (h.symm.trans h') (by simp)
  · rename_i h'
    obtain ⟨rfl, rfl⟩ := Prod.mk.inj (Option.some.inj (h.symm.trans h'))
    rfl

/-- What has been written of the name: the tokens with their lengths and the terminator of the last
one, if there is one. -/
def nameBytes (ts : List (List UInt8)) : List UInt8 :=
  if ts = [] then [] else ts.flatMap labelBytes ++ [0]

theorem nameBytes_cons (l : List UInt8) (ts : List (List UInt8)) :
    nameBytes (l :: ts) = labelBytes l ++ if ts = [] then [0] else nameBytes ts := by
  rw [nameBytes, if_neg (List.cons_ne_nil l ts), List.flatMap_cons, List.append_assoc]
  by_cases h : ts = []
  · simp [h]
  · rw [if_neg h, nameBytes, if_neg h]

/-- The length bytes stand for the dots, and for one more. -/
theorem length_flatMap_labelBytes (hne : labels ≠ []) :
    (labels.flatMap labelBytes).length = (dotted labels).length + 1 := by
  have hdots : ∀ ts : List (List UInt8),
      (ts.flatMap labelBytes).length = (ts.flatMap fun l => l ++ [46]).length := by
    intro ts
    induction ts with
    | nil => rfl
    | cons l ts ih =>
      simp only [List.flatMap_cons, List.length_append, ih, labelBytes, List.length_cons,
        List.length_nil]
  rw [hdots, ← dotted_dot hne, List.length_append]
  rfl

/-- The tokens with their lengths, and the zero at the end, have room in the block. -/
theorem length_nameBytes_le (s : List UInt8) :
    (nameBytes (tokens 46 s)).length ≤ s.length + 2 := by
  have hle := (tokens_sublist 46 s).length_le
  unfold nameBytes
  split_ifs with hnil
  · simp
  · have hlen := length_flatMap_labelBytes hnil
    unfold dotted at hlen
    rw [List.length_append, List.length_singleton]
    omega

/-- **They fill the block** when the hostname is its tokens, with single dots between them. -/
theorem length_tokens_eq_iff (s : List UInt8) :
    (nameBytes (tokens 46 s)).length = s.length + 2 ↔
      tokens 46 s ≠ [] ∧ s = dotted (tokens 46 s) := by
  have hsub := tokens_sublist 46 s
  unfold nameBytes
  split_ifs with hnil
  · simp [hnil]
  · have hlen := length_flatMap_labelBytes hnil
    rw [List.length_append, List.length_singleton, hlen]
    constructor
    · intro h
      exact ⟨hnil, (hsub.eq_of_length (by unfold dotted at h; omega)).symm⟩
    · rintro ⟨-, hs⟩
      rw [← hs]

/-- The loop writes the tokens. It never leaves the block. -/
theorem questionLoop_ok (hfit : s = [] ∨ s.length + 2 ≤ r.length) :
    questionLoop s (w ++ r) w.length = .ok (w ++ ((nameBytes (tokens 46 s)).map some ++
      r.drop (nameBytes (tokens 46 s)).length)) := by
  induction s using tokens_induction (d := (46 : UInt8)) generalizing w r with
  | hnone s hs => simp [questionLoop_none hs, tokens_of_none hs, nameBytes]
  | hsome s l rest hs ih =>
    obtain ⟨g, hne, -, hcut⟩ := strtok_cases hs
    have hpos := List.length_pos_iff.mpr hne
    have hroom : l.length + 2 ≤ r.length ∧ (rest = [] ∨ rest.length + 3 + l.length ≤ r.length) := by
      rcases hcut with ⟨rfl, rfl⟩ | rfl
      · have hfit := hfit.resolve_left (by simp [hne])
        rw [List.length_append] at hfit
        exact ⟨by omega, Or.inl rfl⟩
      · have hfit := hfit.resolve_left (by simp)
        simp only [List.length_append, List.length_cons] at hfit
        exact ⟨by omega, Or.inr (by omega)⟩
    obtain ⟨x, B, rfl⟩ := List.exists_cons_of_length_pos (show 0 < r.length by omega)
    rw [List.length_cons] at hroom
    have hblit := @blit_at _ _ Fault.overflow (w ++ [some (UInt8.ofNat l.length)]) B
      ((l ++ [0]).map some) (w.length + 1) (by simp) (by simp; omega)
    obtain ⟨w', hw'⟩ : ∃ w', w' = w ++ (labelBytes l).map some := ⟨_, rfl⟩
    have hlen' : w.length + 1 + l.length = w'.length := by
      simp [hw', labelBytes]
      omega
    -- the terminator of the token is overwritten by the length of the next
    have hnext := @ih w' (some 0 :: B.drop (l.length + 1)) (hroom.2.imp_right fun h => by
      rw [List.length_cons, List.length_drop]
      omega)
    rw [questionLoop_some hs, put_at rfl, ok_bind,
      show w ++ some (UInt8.ofNat l.length) :: B = w ++ [some (UInt8.ofNat l.length)] ++ B by simp,
      hblit, ok_bind, hlen', tokens_of_some hs, nameBytes_cons]
    have hstate : w ++ [some (UInt8.ofNat l.length)] ++ ((l ++ [0]).map some ++
        B.drop ((l ++ [0]).map some).length) = w' ++ some 0 :: B.drop (l.length + 1) := by
      simp [hw', labelBytes]
    rw [hstate, hnext]
    refine congrArg Except.ok ?_
    by_cases hnil : tokens 46 rest = []
    · simp [hnil, hw', nameBytes, labelBytes]
    · obtain ⟨m, hm⟩ : ∃ m, (nameBytes (tokens 46 rest)).length = m + 1 := by
        refine ⟨((tokens 46 rest).flatMap labelBytes).length, ?_⟩
        rw [nameBytes, if_neg hnil, List.length_append, List.length_singleton]
      have hlen : (labelBytes l ++ nameBytes (tokens 46 rest)).length = l.length + 1 + m + 1 := by
        rw [List.length_append, hm]
        rfl
      rw [if_neg hnil, hlen, hm, List.drop_succ_cons, List.drop_succ_cons, List.drop_drop, hw']
      simp

/-- **The question that is made**: the tokens, and behind them what is left of the block. -/
theorem dnsCreateQuestion_ok (old : DnsQuestion) (hostname : List UInt8) :
    dnsCreateQuestion (some old) true hostname = .ok (0, some ⟨hostname.length + 2, 1, 1,
      (nameBytes (tokens 46 hostname)).map some ++
        List.replicate (hostname.length + 2 - (nameBytes (tokens 46 hostname)).length) none⟩) := by
  have hloop := @questionLoop_ok hostname [] (List.replicate (hostname.length + 2) none)
    (Or.inr (by simp))
  rw [List.nil_append, List.length_nil, List.nil_append, List.drop_replicate] at hloop
  simp only [dnsCreateQuestion, if_true, hloop, ok_bind]

/-! ### The request -/

theorem length_header (h : DnsHeader) : (h.bytes.map some).length = 12 := rfl

/-- **The request that is built**, where there is room for it. -/
theorem dnsBuildRequest_ok (hqname : question.qname.length = question.length)
    (hroom : question.length + 16 ≤ request.length) :
    dnsBuildRequest header question request = .ok (question.length + 16,
      header.bytes.map some ++ (question.qname ++ ((wordBytes question.qtype).map some ++
        ((wordBytes question.qclass).map some ++ request.drop (question.length + 16))))) := by
  -- the parts of the request that are written over
  obtain ⟨R₁, R₂, R₃, R₄, C, hparts, h₁, h₂, h₃, h₄⟩ : ∃ R₁ R₂ R₃ R₄ C,
      request = R₁ ++ (R₂ ++ (R₃ ++ (R₄ ++ C))) ∧ R₁.length = 12 ∧ R₂.length = question.length ∧
      R₃.length = 2 ∧ R₄.length = 2 := by
    refine ⟨request.take 12, (request.drop 12).take question.length,
      ((request.drop 12).drop question.length).take 2,
      (((request.drop 12).drop question.length).drop 2).take 2,
      (((request.drop 12).drop question.length).drop 2).drop 2, by simp only
        [List.take_append_drop], ?_, ?_, ?_, ?_⟩
    all_goals
      simp only [List.length_take, List.length_drop]
      omega
  have hrest : request.drop (question.length + 16) = C := by
    have hlen : question.length + 16 = (R₁ ++ (R₂ ++ (R₃ ++ R₄))).length := by
      simp only [List.length_append]
      omega
    rw [hlen, hparts]
    simp only [← List.append_assoc, List.drop_left]
  rw [hrest, hparts]
  have hheader := @blit_part _ _ Fault.overflow [] R₁ (R₂ ++ (R₃ ++ (R₄ ++ C)))
    (header.bytes.map some) 0 rfl h₁.symm
  have hname := @blit_part _ _ Fault.overflow (header.bytes.map some) R₂ (R₃ ++ (R₄ ++ C))
    question.qname 12 rfl (hqname.trans h₂.symm)
  have htype := @blit_part _ _ Fault.overflow (header.bytes.map some ++ question.qname) R₃ (R₄ ++ C)
    ((wordBytes question.qtype).map some) (12 + question.length)
    (by rw [List.length_append, length_header, hqname]) h₃.symm
  have hclass := @blit_part _ _ Fault.overflow
    (header.bytes.map some ++ question.qname ++ (wordBytes question.qtype).map some) R₄ C
    ((wordBytes question.qclass).map some) (12 + question.length + 2)
    (by rw [List.length_append, List.length_append, length_header, hqname]; rfl) h₄.symm
  rw [List.nil_append] at hheader
  rw [List.append_assoc] at htype
  rw [List.append_assoc, List.append_assoc] at hclass
  have htake : question.qname.take question.length = question.qname := by
    rw [← hqname, List.take_length]
  simp only [dnsBuildRequest, hheader, ok_bind, hqname.ge, if_true, htake, hname, htype, hclass,
    List.nil_append, List.append_assoc]

/-- A request without room is written over. -/
theorem dnsBuildRequest_room {x : ℕ × List (Option UInt8)}
    (h : dnsBuildRequest header question request = .ok x) :
    question.length + 16 ≤ request.length := by
  obtain ⟨r₁, h₁, h⟩ := bind_eq_ok h
  dsimp only at h
  split_ifs at h
  · obtain ⟨r₂, h₂, h⟩ := bind_eq_ok h
    obtain ⟨r₃, h₃, h⟩ := bind_eq_ok h
    obtain ⟨r₄, h₄, -⟩ := bind_eq_ok h
    -- the last of the copies ends where the request does, or before
    obtain ⟨-, hlen₁⟩ := blit_eq_ok h₁
    obtain ⟨-, hlen₂⟩ := blit_eq_ok h₂
    obtain ⟨-, hlen₃⟩ := blit_eq_ok h₃
    obtain ⟨hfit, -⟩ := blit_eq_ok h₄
    have hclass : ((wordBytes question.qclass).map some).length = 2 := rfl
    omega
  · exact absurd h (by simp)

/-! ### The hostnames that can be asked for -/

/-- Labels of 1 to 63 bytes, each with its length in front of it. -/
def Labelled (bs : List UInt8) : Prop :=
  ∃ labels : List (List UInt8), (∀ l ∈ labels, 1 ≤ l.length ∧ l.length ≤ 63) ∧
    bs = labels.flatMap labelBytes

/-- **A well-formed question** in a request: labels and a zero, which is byte number `length` of
the name, the type and the class behind it, and every byte of this has been written. -/
def AsksWell (length : ℕ) (request : List (Option UInt8)) : Prop :=
  ∃ name, Labelled name ∧ (name ++ [0]).length = length ∧
    (name ++ [0] ++ (wordBytes 1 ++ wordBytes 1)).map some <+: request.drop 12

/-- **A question is asked well**: `dns_create_question` returns an error, or the question that it
has made is a well-formed one in the request that `dns_build_request` builds. -/
def Asked (question : Option DnsQuestion) (malloc : Bool) (hostname : List UInt8)
    (header : DnsHeader) (request : List (Option UInt8)) : Prop :=
  ∃ ret q, dnsCreateQuestion question malloc hostname = .ok (ret, q) ∧
    (ret ≠ 0 ∨ ∃ x, q = some x ∧ ∃ length request', dnsBuildRequest header x request =
      .ok (length, request') ∧ AsksWell x.length request')

/-- **A hostname that can be asked for**: non-empty labels with single dots between them, of which
none is longer than 63 bytes. The length byte of a label of 256 bytes or more is the rest of its
length; where there is such a label, the condition is only that the bytes that are written happen
to be labels all the same. -/
def Askable (hostname : List UInt8) : Prop :=
  ∃ labels, labels ≠ [] ∧ (∀ l ∈ labels, l ≠ [] ∧ 46 ∉ l) ∧ hostname = dotted labels ∧
    ((∀ l ∈ labels, l.length ≤ 63) ∨
      (∃ l ∈ labels, 256 ≤ l.length) ∧ Labelled (labels.flatMap labelBytes))

/-- Labels that fit into a byte of length are the only ones that their bytes can be. -/
theorem Labelled.short (h : Labelled (ts.flatMap labelBytes))
    (hts : ∀ l ∈ ts, l ≠ [] ∧ l.length < 256) : ∀ l ∈ ts, l.length ≤ 63 := by
  induction ts with
  | nil => simp
  | cons t ts ih =>
    obtain ⟨labels, hlabels, heq⟩ := h
    rcases labels with _ | ⟨l, labels⟩
    · exact absurd heq (by simp [labelBytes])
    · have hl := hlabels l List.mem_cons_self
      simp only [List.flatMap_cons, labelBytes, List.cons_append] at heq
      obtain ⟨hbyte, hrest⟩ := List.cons.inj heq
      have hnum := congrArg UInt8.toNat hbyte
      rw [UInt8.toNat_ofNat_of_lt' (hts t List.mem_cons_self).2, toNat_length hl.2] at hnum
      obtain ⟨rfl, hflat⟩ := List.append_inj hrest hnum
      intro u hu
      rcases List.mem_cons.mp hu with rfl | hu
      · exact hl.2
      · exact ih ⟨labels, fun v hv => hlabels v (List.mem_cons_of_mem _ hv), hflat⟩
          (fun v hv => hts v (List.mem_cons_of_mem _ hv)) u hu

/-- A block with unwritten bytes at its end is not all written. -/
theorem eq_of_map_some {A B : List UInt8} {k : ℕ}
    (h : A.map some ++ List.replicate k none = B.map some) : k = 0 ∧ A = B := by
  rcases Nat.eq_zero_or_pos k with rfl | hk
  · rw [List.replicate_zero, List.append_nil] at h
    exact ⟨rfl, List.map_injective_iff.mpr (Option.some_injective _) h⟩
  · have hmem : none ∈ B.map some := by
      rw [← h]
      exact List.mem_append_right _ (List.mem_replicate.mpr ⟨by omega, rfl⟩)
    obtain ⟨b, -, hb⟩ := List.mem_map.mp hmem
    exact absurd hb (by simp)

/-- The tokens of an askable hostname are its labels. -/
theorem tokens_dotted (h : ∀ l ∈ labels, l ≠ [] ∧ 46 ∉ l) : tokens 46 (dotted labels) = labels :=
  tokens_intercalate h

/-- **The name fills its block with labels** exactly when the hostname is askable. -/
theorem askable_iff (hostname : List UInt8) : Askable hostname ↔ ∃ name, Labelled name ∧
    (nameBytes (tokens 46 hostname)).map some ++
      List.replicate (hostname.length + 2 - (nameBytes (tokens 46 hostname)).length) none =
        (name ++ [0]).map some := by
  constructor
  · rintro ⟨labels, hne, hlabels, rfl, hshort⟩
    have htokens := tokens_dotted hlabels
    have hfull := (length_tokens_eq_iff (dotted labels)).mpr ⟨htokens.symm ▸ hne, by rw [htokens]⟩
    refine ⟨labels.flatMap labelBytes, ?_, ?_⟩
    · rcases hshort with hall | ⟨-, h⟩
      · exact ⟨labels, fun l hl => ⟨List.length_pos_iff.mpr (hlabels l hl).1, hall l hl⟩, rfl⟩
      · exact h
    · rw [hfull, Nat.sub_self, List.replicate_zero, List.append_nil, htokens, nameBytes, if_neg hne]
  · rintro ⟨name, hname, heq⟩
    obtain ⟨hzero, hbytes⟩ := eq_of_map_some heq
    have hle := length_nameBytes_le hostname
    obtain ⟨hne, hdots⟩ := (length_tokens_eq_iff hostname).mp (by omega)
    rw [nameBytes, if_neg hne] at hbytes
    obtain rfl := List.append_cancel_right hbytes
    refine ⟨tokens 46 hostname, hne, fun l hl => mem_tokens hl, hdots, ?_⟩
    by_cases hlong : ∃ l ∈ tokens 46 hostname, 256 ≤ l.length
    · exact Or.inr ⟨hlong, hname⟩
    · rw [not_exists] at hlong
      exact Or.inl (hname.short fun l hl =>
        ⟨(mem_tokens hl).1, not_le.mp fun h => hlong l ⟨hl, h⟩⟩)

/-- Without an error a question is asked well for an askable hostname, in a request with room. -/
theorem asked_made_iff {old : DnsQuestion} {hostname : List UInt8} :
    Asked (some old) true hostname header request ↔
      Askable hostname ∧ hostname.length + 18 ≤ request.length := by
  have hmade := dnsCreateQuestion_ok old hostname
  have hle := length_nameBytes_le hostname
  rw [askable_iff]
  obtain ⟨block, hblock⟩ : ∃ block, block = (nameBytes (tokens 46 hostname)).map some ++
      List.replicate (hostname.length + 2 - (nameBytes (tokens 46 hostname)).length) none :=
    ⟨_, rfl⟩
  rw [← hblock] at hmade ⊢
  have hlen : block.length = hostname.length + 2 := by
    rw [hblock, List.length_append, List.length_map, List.length_replicate]
    omega
  constructor
  · rintro ⟨ret, q, hq, hret⟩
    obtain ⟨rfl, rfl⟩ := Prod.mk.inj (Except.ok.inj (hmade.symm.trans hq))
    obtain ⟨x, hx, length, request', hbuild, name, hname, hnum, t, ht⟩ :=
      hret.resolve_left (by simp)
    obtain rfl := Option.some.inj hx
    have hroom : hostname.length + 2 + 16 ≤ request.length := dnsBuildRequest_room hbuild
    rw [dnsBuildRequest_ok hlen hroom] at hbuild
    obtain ⟨-, rfl⟩ := Prod.mk.inj (Except.ok.inj hbuild)
    rw [List.drop_left' (length_header header), List.map_append, List.append_assoc] at ht
    -- the name is as long as the block
    obtain ⟨hblock', -⟩ := List.append_inj ht (by rw [List.length_map, hlen]; exact hnum)
    exact ⟨⟨name, hname, hblock'.symm⟩, by omega⟩
  · rintro ⟨⟨name, hname, heq⟩, hroom⟩
    have hbuild := @dnsBuildRequest_ok ⟨hostname.length + 2, 1, 1, block⟩ header request hlen
      (show hostname.length + 2 + 16 ≤ _ by omega)
    refine ⟨0, _, hmade, Or.inr ⟨_, rfl, _, _, hbuild, name, hname, ?_, ?_⟩⟩
    · rw [← hlen, heq, List.length_map]
    · rw [List.drop_left' (length_header header), heq, List.map_append, List.map_append,
        List.append_assoc]
      exact ⟨request.drop (hostname.length + 2 + 16), by simp⟩

theorem Askable.tokens_eq {hostname : List UInt8} (h : Askable hostname) :
    tokens 46 hostname ≠ [] ∧ hostname = dotted (tokens 46 hostname) := by
  obtain ⟨labels, hne, hlabels, rfl, -⟩ := h
  rw [tokens_dotted hlabels]
  exact ⟨hne, rfl⟩

end

end Dns

end BackendStudy
