import BackendStudy.Dns.Model
import Mathlib.Logic.Relation

/-!
# Where the parser stays

Nothing in the parser looks at the length of what has been received, so where it reads is
decided by the bytes alone. The decoding of a name is a walk over positions that counts the
characters written (`BackendStudy.Dns.NameStep`): over a label, or along a pointer, of which the
source reads one byte. It stays within the buffers when every position it comes to has a zero
or another step, and the count stays below the size of a name buffer
(`BackendStudy.Dns.NameFits`). The walk may go round for ever; then nothing behind the name is
read.

What the parser does at one position of a name is said once
(`BackendStudy.Dns.nameCase`). From it the exact condition follows for a name, for an
answer and for a whole response (`BackendStudy.Dns.dnsParseResponse_safe_iff`).
-/

namespace BackendStudy

namespace Dns

open Wire Fuel Relation

/-! ### The walk over a name -/

/-- **One step of the walk over a name**: the position, and the number of characters written so
far. Behind a label comes a dot, unless the name ends there. -/
inductive NameStep (chunk : List UInt8) : ℕ × ℕ → ℕ × ℕ → Prop
  /-- A pointer. -/
  | jump {p l : ℕ} {b n : UInt8} : chunk[p]? = some b → isPointer b.toNat = true →
      chunk[p + 1]? = some n → NameStep chunk (p, l) (n.toNat, l)
  /-- A label. -/
  | label {p l : ℕ} {b next : UInt8} : chunk[p]? = some b → b ≠ 0 → isPointer b.toNat = false →
      chunk[p + 1 + b.toNat]? = some next →
      NameStep chunk (p, l) (p + 1 + b.toNat, l + b.toNat + if next = 0 then 0 else 1)

/-- The positions that the walk from a position comes to, with the characters written. -/
def NameWalk (chunk : List UInt8) : ℕ × ℕ → ℕ × ℕ → Prop := ReflTransGen (NameStep chunk)

/-- **A name stays within the buffers.** -/
def NameFits (chunk : List UInt8) (p : ℕ) : Prop :=
  ∀ q, NameWalk chunk (p, 0) q → q.2 ≤ 127 ∧ (chunk[q.1]? = some 0 ∨ ∃ q', NameStep chunk q q')

/-- **A name ends**: the walk comes to a zero. -/
def NameEnds (chunk : List UInt8) (p : ℕ) : Prop :=
  ∃ q, NameWalk chunk (p, 0) q ∧ chunk[q.1]? = some 0

/-! ### Questions and answers -/

/-- The labels of a question end in front of a position. -/
inductive LabelsEnd (chunk : List UInt8) : ℕ → ℕ → Prop
  /-- The last label. -/
  | zero {p : ℕ} : chunk[p]? = some 0 → LabelsEnd chunk p (p + 1)
  /-- Another label. -/
  | label {p q : ℕ} {b : UInt8} : chunk[p]? = some b → b ≠ 0 →
      LabelsEnd chunk (p + (b.toNat + 1)) q → LabelsEnd chunk p q

/-- A number of questions ends in front of a position. -/
def QuestionsEnd (chunk : List UInt8) : ℕ → ℕ → ℕ → Prop
  | 0, p, q => p = q
  | k + 1, p, q => ∃ r, LabelsEnd chunk p r ∧ QuestionsEnd chunk k (r + 4) q

/-- **An answer stays within the buffers**: its name does, and where the name ends, so do the
fields that are read two bytes behind the beginning of the answer, the name in the data of an
alias, and the address of four bytes. -/
def AnswerFits (chunk : List UInt8) (p : ℕ) : Prop :=
  NameFits chunk p ∧ (NameEnds chunk p →
    ∃ type ttl datalen, Word chunk (p + 2) type ∧ Word chunk (p + 6) ttl ∧
      Word chunk (p + 10) datalen ∧ (type = dnsCname → NameFits chunk (p + 12)) ∧
      (type = dnsHost → datalen = 4 → p + 16 ≤ chunk.length))

/-- **An answer ends** in front of a position: what the source takes for its end. -/
def AnswerEnds (chunk : List UInt8) (p q : ℕ) : Prop :=
  NameEnds chunk p ∧ ∃ type datalen, Word chunk (p + 2) type ∧ Word chunk (p + 10) datalen ∧
    (type = dnsCname → NameEnds chunk (p + 12)) ∧
    q = if type = dnsCname ∨ type = dnsHost then p + 12 + datalen else p + 12

/-- **A number of answers stays within the buffers.** -/
def AnswersFit (chunk : List UInt8) : ℕ → ℕ → Prop
  | 0, _ => True
  | k + 1, p => AnswerFits chunk p ∧ ∀ q, AnswerEnds chunk p q → AnswersFit chunk k q

/-- **A response stays within the buffers.** -/
def ResponseFits (chunk : List UInt8) : Prop :=
  ∃ querys answers p, Word chunk 4 querys ∧ Word chunk 6 answers ∧
    QuestionsEnd chunk querys 12 p ∧ AnswersFit chunk answers p

section

variable {chunk out : List UInt8} {p q r : ℕ} {s s' s'' : ℕ × ℕ}

/-! ### Names -/

theorem NameStep.unique (h : NameStep chunk s s') (h' : NameStep chunk s s'') : s' = s'' := by
  cases h with
  | jump hb hp hn =>
    cases h' with
    | jump hb' _ hn' =>
      obtain rfl := Option.some.inj (hn.symm.trans hn')
      rfl
    | label hb' _ hp' _ =>
      obtain rfl := Option.some.inj (hb.symm.trans hb')
      exact absurd (hp.symm.trans hp') (by simp)
  | label hb _ hp hn =>
    cases h' with
    | jump hb' hp' _ =>
      obtain rfl := Option.some.inj (hb.symm.trans hb')
      exact absurd (hp.symm.trans hp') (by simp)
    | label hb' _ _ hn' =>
      obtain rfl := Option.some.inj (hb.symm.trans hb')
      obtain rfl := Option.some.inj (hn.symm.trans hn')
      rfl

theorem NameStep.not_zero (h : NameStep chunk s s') : chunk[s.1]? ≠ some 0 := by
  intro h₀
  cases h with
  | jump hb hp _ =>
    obtain rfl := Option.some.inj (hb.symm.trans h₀)
    exact absurd hp (by decide)
  | label hb hne _ _ => exact hne (Option.some.inj (hb.symm.trans h₀))

theorem byte_of {b : UInt8} (h : chunk[p]? = some b) :
    byte Fault.outOfRange chunk p = .ok b.toNat := byte_eq_ok_iff.mpr ⟨b, h, rfl⟩

theorem byte_none (h : chunk[p]? = none) : byte Fault.outOfRange chunk p = .error .outOfRange := by
  rw [byte, h]

/-- The turn of the loop at a label. -/
theorem dnsParseName_atLabel {b : UInt8} (hb : chunk[p]? = some b) (hzero : b ≠ 0)
    (hptr : isPointer b.toNat = false) (n : ℕ) : dnsParseName chunk (n + 1) p out = (do
      let label ← slice .outOfRange chunk (p + 1) b.toNat
      let out ← writeName out label
      let next ← byte .outOfRange chunk (p + 1 + b.toNat)
      let out ← if next ≠ 0 then writeName out [46] else .ok out
      dnsParseName chunk n (p + 1 + b.toNat) out) := by
  have hne : ¬b.toNat = 0 := fun h => hzero (UInt8.toNat_inj.mp h)
  simp only [dnsParseName, byte_of hb, Slots.ok_bind, hne, if_false, hptr, Bool.false_eq_true]

/-- **What the parser does at a position of a name.** -/
inductive NameCase (chunk : List UInt8) (p : ℕ) (out : List UInt8) : Prop
  /-- It is at the end. -/
  | ends : chunk[p]? = some 0 → (∀ n, dnsParseName chunk (n + 1) p out = .ok out) →
      NameCase chunk p out
  /-- It makes a step of the walk. -/
  | goesOn {s : ℕ × ℕ} {out' : List UInt8} : NameStep chunk (p, out.length) s → s.2 ≤ 127 →
      out'.length = s.2 →
      (∀ n, dnsParseName chunk (n + 1) p out = dnsParseName chunk n s.1 out') →
      NameCase chunk p out
  /-- It comes to a fault, and the walk has no step that stays in the name buffer. -/
  | faults {e : Fault} : e ≠ .outOfFuel →
      (∀ n, dnsParseName chunk (n + 1) p out = .error e) → chunk[p]? ≠ some 0 →
      (∀ s, NameStep chunk (p, out.length) s → 127 < s.2) → NameCase chunk p out

/-- The only step of the walk at a label goes over it. -/
theorem NameStep.at_label {b : UInt8} (h : NameStep chunk (p, r) s) (hb : chunk[p]? = some b)
    (hptr : isPointer b.toNat = false) : ∃ next, chunk[p + 1 + b.toNat]? = some next ∧
      s = (p + 1 + b.toNat, r + b.toNat + if next = 0 then 0 else 1) := by
  cases h with
  | jump hb' hp' _ =>
    obtain rfl := Option.some.inj (hb.symm.trans hb')
    exact absurd (hptr.symm.trans hp') (by simp)
  | label hb' _ _ hn =>
    obtain rfl := Option.some.inj (hb.symm.trans hb')
    exact ⟨_, hn, rfl⟩

theorem writeName_fits {l : List UInt8} (h : out.length + l.length ≤ 127) :
    writeName out l = .ok (out ++ l) := by
  rw [writeName, if_pos (by rwa [List.length_append])]

theorem writeName_full {l : List UInt8} (h : 127 < out.length + l.length) :
    writeName out l = .error .overflow := by
  rw [writeName, if_neg]
  rw [List.length_append]
  exact h.not_ge

/-- The rest of the turn behind a label that is in the chunk and has been written: the dot, if
another byte follows. -/
theorem nameCase_written {b next : UInt8} {l : List UInt8} (hb : chunk[p]? = some b)
    (hzero : b ≠ 0) (hptr : isPointer b.toNat = false) (hlen : l.length = b.toNat)
    (hroom : out.length + b.toNat ≤ 127) (hn : chunk[p + 1 + b.toNat]? = some next)
    (hrun : ∀ n, dnsParseName chunk (n + 1) p out = (do
      let out ← if next.toNat ≠ 0 then writeName (out ++ l) [46] else .ok (out ++ l)
      dnsParseName chunk n (p + 1 + b.toNat) out)) : NameCase chunk p out := by
  have hs := NameStep.label (l := out.length) hb hzero hptr hn
  have hlen' : (out ++ l).length = out.length + b.toNat := by rw [List.length_append, hlen]
  by_cases hlast : next = 0
  · subst hlast
    exact .goesOn hs (by simpa using hroom) (hlen'.trans (by simp)) hrun
  have hdot : next.toNat ≠ 0 := fun h => hlast (UInt8.toNat_inj.mp h)
  by_cases hroom' : out.length + b.toNat + 1 ≤ 127
  · have hwrite : writeName (out ++ l) [46] = .ok (out ++ l ++ [46]) :=
      writeName_fits (by rwa [hlen'])
    have hdotted : (out ++ l ++ [46]).length =
        out.length + b.toNat + if next = 0 then 0 else 1 := by
      rw [List.length_append, hlen', if_neg hlast, List.length_singleton]
    refine .goesOn hs (by simpa [hlast] using hroom') hdotted fun n => ?_
    rw [hrun, if_pos hdot, hwrite, Slots.ok_bind]
  · have hwrite : writeName (out ++ l) [46] = .error .overflow :=
      writeName_full (by rw [hlen']; exact not_le.mp hroom')
    refine .faults (e := .overflow) (by simp) (fun n => ?_) (by simpa [hb] using hzero)
      fun s hs => ?_
    · rw [hrun, if_pos hdot, hwrite, Slots.error_bind]
    · obtain ⟨next', hn', rfl⟩ := hs.at_label hb hptr
      obtain rfl := Option.some.inj (hn.symm.trans hn')
      simp only [hlast, if_false]
      omega

/-- A label. -/
theorem nameCase_label {b : UInt8} (hb : chunk[p]? = some b) (hzero : b ≠ 0)
    (hptr : isPointer b.toNat = false) : NameCase chunk p out := by
  have hrun := @dnsParseName_atLabel chunk out p b hb hzero hptr
  have hnot : chunk[p]? ≠ some 0 := by simpa [hb] using hzero
  by_cases hfit : p + 1 + b.toNat ≤ chunk.length
  · obtain ⟨l, hslice, hlen, -⟩ := exists_slice Fault.outOfRange hfit
    by_cases hroom : out.length + b.toNat ≤ 127
    · have hwrite : writeName out l = .ok (out ++ l) := writeName_fits (by rwa [hlen])
      cases hn : chunk[p + 1 + b.toNat]? with
      | none =>
        refine .faults (e := .outOfRange) (by simp) (fun n => ?_) hnot fun s hs => ?_
        · rw [hrun, hslice, Slots.ok_bind, hwrite, Slots.ok_bind, byte_none hn, Slots.error_bind]
        · obtain ⟨next, hn', -⟩ := hs.at_label hb hptr
          exact absurd (hn.symm.trans hn') (by simp)
      | some next =>
        refine nameCase_written hb hzero hptr hlen hroom hn fun n => ?_
        rw [hrun, hslice, Slots.ok_bind, hwrite, Slots.ok_bind, byte_of hn, Slots.ok_bind]
    · have hwrite : writeName out l = .error .overflow :=
        writeName_full (by rw [hlen]; exact not_le.mp hroom)
      refine .faults (e := .overflow) (by simp) (fun n => ?_) hnot fun s hs => ?_
      · rw [hrun, hslice, Slots.ok_bind, hwrite, Slots.error_bind]
      · obtain ⟨next, -, rfl⟩ := hs.at_label hb hptr
        change 127 < out.length + b.toNat + _
        omega
  · have hslice : slice Fault.outOfRange chunk (p + 1) b.toNat = .error .outOfRange := by
      rw [slice, if_neg hfit]
    refine .faults (e := .outOfRange) (by simp) (fun n => ?_) hnot fun s hs => ?_
    · rw [hrun, hslice, Slots.error_bind]
    · obtain ⟨next, hn, -⟩ := hs.at_label hb hptr
      have := (List.getElem?_eq_some_iff.mp hn).1
      omega

theorem nameCase (chunk : List UInt8) (p : ℕ) (hout : out.length ≤ 127) :
    NameCase chunk p out := by
  cases hb : chunk[p]? with
  | none =>
    refine .faults (e := .outOfRange) (by simp) (fun n => ?_) (by simp [hb]) fun s hs => ?_
    -- there is no byte to read
    · rw [dnsParseName, byte_none hb]
      rfl
    · cases hs with
      | jump hb' => exact absurd (hb.symm.trans hb') (by simp)
      | label hb' => exact absurd (hb.symm.trans hb') (by simp)
  | some b =>
    by_cases hzero : b = 0
    · subst hzero
      refine .ends hb fun n => ?_
      rw [dnsParseName, byte_of hb]
      rfl
    have hne : ¬b.toNat = 0 := fun h => hzero (UInt8.toNat_inj.mp h)
    cases hptr : isPointer b.toNat with
    | false => exact nameCase_label hb hzero hptr
    | true =>
      cases hn : chunk[p + 1]? with
      | none =>
        -- the second byte of the pointer is missing
        refine .faults (e := .outOfRange) (by simp) (fun n => ?_) (by simpa [hb] using hzero)
          fun s hs => ?_
        · simp only [dnsParseName, byte_of hb, Slots.ok_bind, hne, if_false, hptr, if_true,
            byte_none hn, Slots.error_bind]
        · cases hs with
          | jump _ _ hn' => exact absurd (hn.symm.trans hn') (by simp)
          | label hb' _ hp' _ =>
            obtain rfl := Option.some.inj (hb.symm.trans hb')
            exact absurd (hptr.symm.trans hp') (by simp)
      | some n =>
        refine .goesOn (.jump hb hptr hn) hout rfl fun n => ?_
        simp only [dnsParseName, byte_of hb, Slots.ok_bind, hne, if_false, hptr, if_true,
          byte_of hn]

theorem stable_dnsParseName (chunk : List UInt8) (p : ℕ) (hout : out.length ≤ 127) :
    Stable Fault.outOfFuel fun n => dnsParseName chunk n p out := by
  intro m n hle hne
  induction m generalizing n p out with
  | zero => exact absurd rfl hne
  | succ m ih =>
    obtain ⟨n, rfl⟩ : ∃ k, n = k + 1 := ⟨n - 1, by omega⟩
    cases nameCase chunk p hout with
    | ends _ hrun => exact (hrun n).trans (hrun m).symm
    | faults _ hrun _ _ => exact (hrun n).trans (hrun m).symm
    | goesOn _ hlt hlen hrun =>
      simp only [hrun] at hne ⊢
      exact ih _ (hlen.trans_le hlt) (by omega) hne

/-- **Decoding a name is safe** as long as its walk stays within the buffers. -/
theorem dnsParseName_safe_iff (hout : out.length ≤ 127) :
    Safe Fault.outOfFuel (fun n => dnsParseName chunk n p out) ↔
      ∀ q, NameWalk chunk (p, out.length) q →
        q.2 ≤ 127 ∧ (chunk[q.1]? = some 0 ∨ ∃ q', NameStep chunk q q') := by
  -- a safe run goes through every place of the walk, so none of them is one where it faults
  constructor
  · intro h q hq
    obtain ⟨s, hs⟩ : ∃ s, s = (p, out.length) := ⟨_, rfl⟩
    rw [← hs] at hq
    induction hq using ReflTransGen.head_induction_on generalizing p out with
    | refl =>
      obtain rfl := hs
      refine ⟨hout, ?_⟩
      cases nameCase chunk p hout with
      | ends hzero _ => exact Or.inl hzero
      | goesOn hstep _ _ _ => exact Or.inr ⟨_, hstep⟩
      | faults hne hrun _ _ => exact absurd (h 1 _ (hrun 0)) hne
    | head hstep _ ih =>
      obtain rfl := hs
      cases nameCase chunk p hout with
      | ends hzero _ => exact absurd hzero hstep.not_zero
      | faults hne hrun _ _ => exact absurd (h 1 _ (hrun 0)) hne
      | goesOn hstep' hlt hlen hrun =>
        obtain rfl := hstep.unique hstep'
        exact ih (hlen.trans_le hlt) (fun n e he => h (n + 1) e ((hrun n).trans he))
          (by rw [hlen])
  -- by the fuel, the place and the buffer being those of the walk so far
  · intro h n
    induction n generalizing p out with
    | zero =>
      rintro e he
      exact (Except.error.inj he).symm
    | succ n ih =>
      intro e he
      cases nameCase chunk p hout with
      | ends _ hrun => exact absurd ((hrun n).symm.trans he) (by simp)
      | faults _ _ hnot hover =>
        obtain ⟨-, hzero | ⟨q, hstep⟩⟩ := h _ .refl
        · exact absurd hzero hnot
        · exact absurd (h q (.single hstep)).1 (not_le.mpr (hover q hstep))
      | goesOn hstep hlt hlen hrun =>
        refine ih (hlen.trans_le hlt) (fun q hq => h q (.head hstep ?_)) e ((hrun n).symm.trans he)
        rwa [hlen] at hq

/-- A safe name is decoded if and only if its walk ends. -/
theorem dnsParseName_yields_iff (hfit : NameFits chunk p) :
    (∃ out, Yields (fun n => dnsParseName chunk n p []) out) ↔ NameEnds chunk p := by
  -- from any place of the walk, with what has been written up to there
  suffices hgen : ∀ q : ℕ × ℕ, NameWalk chunk (p, 0) q → ∀ out : List UInt8, out.length = q.2 →
      ((∃ out', Yields (fun n => dnsParseName chunk n q.1 out) out') ↔
        ∃ r, NameWalk chunk q r ∧ chunk[r.1]? = some 0) from hgen (p, 0) .refl [] rfl
  intro q hq out hlen
  have hout : out.length ≤ 127 := hlen.trans_le (hfit q hq).1
  constructor
  -- by the fuel: a run that ends has come to the zero byte
  · rintro ⟨out', n, hn⟩
    induction n generalizing q out with
    | zero => exact absurd hn (by simp [dnsParseName])
    | succ n ih =>
      cases nameCase chunk q.1 hout with
      | ends hzero _ => exact ⟨q, .refl, hzero⟩
      | faults _ hrun _ _ => exact absurd ((hrun n).symm.trans hn) (by simp)
      | goesOn hstep hlt hlen' hrun =>
        rw [hlen] at hstep
        obtain ⟨r, hr, hzero⟩ := ih _ (hq.tail hstep) _ hlen' (hlen'.trans_le hlt)
          ((hrun n).symm.trans hn)
        exact ⟨r, .head hstep hr, hzero⟩
  · rintro ⟨r, hr, hzero⟩
    -- by the walk to the zero byte, from its start
    induction hr using ReflTransGen.head_induction_on generalizing out with
    | refl =>
      cases nameCase chunk r.1 hout with
      | ends _ hrun => exact ⟨out, 1, hrun 0⟩
      | faults _ _ hnot _ => exact absurd hzero hnot
      | goesOn hstep _ _ _ => exact absurd hzero hstep.not_zero
    | @head q q' hstep _ ih =>
      cases nameCase chunk q.1 hout with
      | ends hzero' _ => exact absurd hzero' hstep.not_zero
      | faults _ _ _ hover =>
        rw [hlen] at hover
        exact absurd (hfit q' (hq.tail hstep)).1 (not_le.mpr (hover q' hstep))
      | goesOn hstep' hlt hlen' hrun =>
        rw [hlen] at hstep'
        obtain rfl := hstep.unique hstep'
        obtain ⟨out', n, hn⟩ := ih (hq.tail hstep) _ hlen' (hlen'.trans_le hlt)
        exact ⟨out', n + 1, (hrun n).trans hn⟩

/-! ### Questions -/

theorem stable_skipLabels (chunk : List UInt8) (p : ℕ) :
    Stable Fault.outOfFuel fun n => skipLabels chunk n p := by
  intro m n hle hne
  induction m generalizing n p with
  | zero => exact absurd rfl hne
  | succ m ih =>
    obtain ⟨n, rfl⟩ : ∃ k, n = k + 1 := ⟨n - 1, by omega⟩
    simp only [skipLabels] at hne ⊢
    cases hb : byte Fault.outOfRange chunk p with
    | error e => rfl
    | ok flag =>
      simp only [hb, Slots.ok_bind] at hne ⊢
      split_ifs at hne ⊢
      · rfl
      · exact ih _ (by omega) hne

/-- The labels of a question are passed when they end. -/
theorem skipLabels_yields_iff : Yields (fun n => skipLabels chunk n p) q ↔ LabelsEnd chunk p q := by
  constructor
  · rintro ⟨n, hn⟩
    induction n generalizing p with
    | zero => exact absurd hn (by simp [skipLabels])
    | succ n ih =>
      simp only [skipLabels] at hn
      cases hb : chunk[p]? with
      | none => exact absurd hn (by simp [byte_none hb])
      | some b =>
        rw [byte_of hb, Slots.ok_bind] at hn
        split_ifs at hn with hzero
        · obtain rfl : b = 0 := UInt8.toNat_inj.mp hzero
          obtain rfl := Except.ok.inj hn
          exact .zero hb
        · exact .label hb (fun h => hzero (congrArg UInt8.toNat h)) (ih hn)
  · intro h
    induction h with
    | zero hb => exact ⟨1, by simp [skipLabels, byte_of hb]⟩
    | label hb hne _ ih =>
      obtain ⟨n, hn⟩ := ih
      have hflag : ¬_ = 0 := fun h => hne (UInt8.toNat_inj.mp h)
      refine ⟨n + 1, ?_⟩
      simp only [skipLabels, byte_of hb, Slots.ok_bind, hflag, if_false]
      exact hn

/-- The loop over labels goes forward, so it ends. -/
theorem skipLabels_ends {n : ℕ} (h : chunk.length ≤ p + n) :
    skipLabels chunk (n + 1) p ≠ .error .outOfFuel := by
  induction n generalizing p with
  | zero =>
    have hb : chunk[p]? = none := List.getElem?_eq_none h
    simp [skipLabels, byte_none hb]
  | succ n ih =>
    rw [skipLabels]
    cases hb : chunk[p]? with
    | none => simp [byte_none hb]
    | some b =>
      rw [byte_of hb, Slots.ok_bind]
      split_ifs
      · simp
      · exact ih (by omega)

theorem skipLabels_safe_iff :
    Safe Fault.outOfFuel (fun n => skipLabels chunk n p) ↔ ∃ q, LabelsEnd chunk p q := by
  constructor
  · intro h
    cases hr : skipLabels chunk (chunk.length + 1) p with
    | error e => exact absurd (h _ e hr ▸ hr) (skipLabels_ends (by omega))
    | ok q => exact ⟨q, skipLabels_yields_iff.mp ⟨_, hr⟩⟩
  · rintro ⟨q, hq⟩
    exact (stable_skipLabels chunk p).safe (skipLabels_yields_iff.mpr hq)

theorem stable_skipQuestions (chunk : List UInt8) (k p : ℕ) :
    Stable Fault.outOfFuel fun n => skipQuestions n chunk k p := by
  induction k generalizing p with
  | zero => exact stable_const _
  | succ k ih => exact (stable_skipLabels chunk p).bind fun r => ih (r + 4)

theorem skipQuestions_yields_iff {k : ℕ} :
    Yields (fun n => skipQuestions n chunk k p) q ↔ QuestionsEnd chunk k p q := by
  induction k generalizing p with
  | zero =>
    constructor
    · rintro ⟨n, hn⟩
      exact Except.ok.inj hn
    · rintro rfl
      exact ⟨0, rfl⟩
  | succ k ih =>
    constructor
    · intro h
      obtain ⟨r, hr, hq⟩ := yields_of_bind h
      exact ⟨r, skipLabels_yields_iff.mp hr, ih.mp hq⟩
    · rintro ⟨r, hr, hq⟩
      exact (stable_skipLabels chunk p).yields_bind (skipLabels_yields_iff.mpr hr)
        (stable_skipQuestions chunk k (r + 4)) (ih.mpr hq)

theorem skipQuestions_safe_iff {k : ℕ} :
    Safe Fault.outOfFuel (fun n => skipQuestions n chunk k p) ↔ ∃ q, QuestionsEnd chunk k p q := by
  induction k generalizing p with
  | zero => exact ⟨fun _ => ⟨p, rfl⟩, fun _ n e he => absurd he (by simp [skipQuestions])⟩
  | succ k ih =>
    simp only [skipQuestions]
    rw [safe_bind_iff (stable_skipLabels chunk p) fun r => stable_skipQuestions chunk k (r + 4),
      skipLabels_safe_iff]
    constructor
    · rintro ⟨⟨r, hr⟩, h⟩
      obtain ⟨q, hq⟩ := ih.mp (h r (skipLabels_yields_iff.mpr hr))
      exact ⟨q, r, hr, hq⟩
    · rintro ⟨q, r, hr, hq⟩
      refine ⟨⟨r, hr⟩, fun r' hr' => ?_⟩
      obtain rfl := (stable_skipLabels chunk p).yields_unique hr' (skipLabels_yields_iff.mpr hr)
      exact ih.mpr ⟨q, hq⟩

/-! ### Answers -/

/-- What is done with the data of an answer. -/
def answerData (fuel : ℕ) (chunk : List UInt8) (ptr : ℕ) (found : Found) (aname : List UInt8)
    (type datalen : ℕ) : Except Fault (ℕ × Found) :=
  if type = dnsCname then do
    let _ ← dnsParseName chunk fuel ptr []
    .ok (ptr + datalen, found)
  else if type = dnsHost then
    if datalen = 4 then do
      let netip ← slice .outOfRange chunk ptr datalen
      .ok (ptr + datalen, ⟨found.cnt + 1, found.list ++ [⟨cString aname, inetNtop netip⟩]⟩)
    else .ok (ptr + datalen, found)
  else .ok (ptr, found)

/-- What is done behind a name. -/
def answerRest (fuel : ℕ) (chunk : List UInt8) (ptr : ℕ) (found : Found) (aname : List UInt8) :
    Except Fault (ℕ × Found) := do
  let type ← be16 .outOfRange chunk (ptr + 2)
  let _ ← be16 .outOfRange chunk (ptr + 6)
  let datalen ← be16 .outOfRange chunk (ptr + 10)
  answerData fuel chunk (ptr + 12) found aname type datalen

theorem parseAnswer_eq (fuel : ℕ) (chunk : List UInt8) (ptr : ℕ) (found : Found) :
    parseAnswer fuel chunk ptr found =
      dnsParseName chunk fuel ptr [] >>= answerRest fuel chunk ptr found := rfl

section

variable {found : Found} {aname : List UInt8} {type datalen : ℕ} {res : ℕ × Found}

theorem stable_answerData (chunk : List UInt8) (p : ℕ) (found : Found) (aname : List UInt8)
    (type datalen : ℕ) :
    Stable Fault.outOfFuel fun n => answerData n chunk p found aname type datalen := by
  refine Stable.ite ?_ (Stable.ite (Stable.ite (stable_const _) (stable_const _)) (stable_const _))
  exact (stable_dnsParseName chunk p (Nat.zero_le _)).bind fun _ => stable_const _

theorem stable_answerRest (chunk : List UInt8) (p : ℕ) (found : Found) (aname : List UInt8) :
    Stable Fault.outOfFuel fun n => answerRest n chunk p found aname :=
  (stable_const _).bind fun type => (stable_const _).bind fun _ => (stable_const _).bind
    fun datalen => stable_answerData chunk (p + 12) found aname type datalen

theorem stable_parseAnswer (chunk : List UInt8) (p : ℕ) (found : Found) :
    Stable Fault.outOfFuel fun n => parseAnswer n chunk p found :=
  (stable_dnsParseName chunk p (Nat.zero_le _)).bind fun aname =>
    stable_answerRest chunk p found aname

theorem answerData_safe_iff :
    Safe Fault.outOfFuel (fun n => answerData n chunk p found aname type datalen) ↔
      (type = dnsCname → NameFits chunk p) ∧
        (type = dnsHost → datalen = 4 → p + 4 ≤ chunk.length) := by
  unfold answerData
  by_cases hc : type = dnsCname
  · have hh : ¬type = dnsHost := fun h => absurd (hc.symm.trans h) (by decide)
    simp only [hc, if_true, true_implies]
    rw [safe_bind_iff (stable_dnsParseName chunk p (Nat.zero_le _)) fun _ => stable_const _,
      dnsParseName_safe_iff (Nat.zero_le _)]
    refine ⟨fun h => ⟨h.1, fun h' => absurd (hc.trans h') hh⟩, fun h => ⟨h.1, fun _ _ => ?_⟩⟩
    exact (safe_const_iff (by simp)).mpr ⟨_, rfl⟩
  · simp only [hc, if_false, false_implies, true_and]
    by_cases hh : type = dnsHost ∧ datalen = 4
    · obtain ⟨rfl, rfl⟩ := hh
      simp only [if_true, true_implies]
      constructor
      · intro h
        by_contra hlt
        exact absurd (h 0 .outOfRange (by rw [slice, if_neg hlt, Slots.error_bind])) (by simp)
      · intro h n e he
        rw [slice, if_pos h, Slots.ok_bind] at he
        exact absurd he (by simp)
    · refine iff_of_true ?_ fun h h' => absurd ⟨h, h'⟩ hh
      split_ifs
      · exact absurd ⟨‹_›, ‹_›⟩ hh
      · exact (safe_const_iff (by simp)).mpr ⟨_, rfl⟩
      · exact (safe_const_iff (by simp)).mpr ⟨_, rfl⟩

theorem answerRest_safe_iff :
    Safe Fault.outOfFuel (fun n => answerRest n chunk p found aname) ↔
      ∃ type ttl datalen, Word chunk (p + 2) type ∧ Word chunk (p + 6) ttl ∧
        Word chunk (p + 10) datalen ∧ (type = dnsCname → NameFits chunk (p + 12)) ∧
        (type = dnsHost → datalen = 4 → p + 16 ≤ chunk.length) := by
  unfold answerRest
  rw [safe_const_bind_iff (be16_ne_error (by simp)) fun type => (stable_const _).bind
    fun _ => (stable_const _).bind fun datalen =>
      stable_answerData chunk (p + 12) found aname type datalen]
  refine exists_congr fun type => ?_
  rw [be16_eq_ok_iff, safe_const_bind_iff (be16_ne_error (by simp)) fun _ => (stable_const _).bind
    fun datalen => stable_answerData chunk (p + 12) found aname type datalen]
  simp only [be16_eq_ok_iff]
  rw [safe_const_bind_iff (be16_ne_error (by simp)) fun datalen =>
    stable_answerData chunk (p + 12) found aname type datalen]
  simp only [be16_eq_ok_iff, answerData_safe_iff]
  constructor
  · rintro ⟨ht, ttl, httl, datalen, hd, h⟩
    exact ⟨ttl, datalen, ht, httl, hd, h⟩
  · rintro ⟨ttl, datalen, ht, httl, hd, h⟩
    exact ⟨ht, ttl, httl, datalen, hd, h⟩

/-- **An answer is safe** if and only if it stays within the buffers. -/
theorem parseAnswer_safe_iff :
    Safe Fault.outOfFuel (fun n => parseAnswer n chunk p found) ↔ AnswerFits chunk p := by
  simp only [parseAnswer_eq]
  rw [safe_bind_iff (stable_dnsParseName chunk p (Nat.zero_le _))
    fun aname => stable_answerRest chunk p found aname, dnsParseName_safe_iff (Nat.zero_le _)]
  simp only [answerRest_safe_iff]
  refine and_congr_right fun hfit => ?_
  rw [← dnsParseName_yields_iff hfit]
  exact ⟨fun h ⟨out, hout⟩ => h out hout, fun h out hout => h ⟨out, hout⟩⟩

theorem yields_const_iff {found' : Found} :
    (∃ res, Yields (fun _ => (.ok (p, found') : Except Fault (ℕ × Found))) (q, res)) ↔ q = p := by
  constructor
  · rintro ⟨res, n, hn⟩
    exact (Prod.mk.inj (Except.ok.inj hn)).1.symm
  · rintro rfl
    exact ⟨_, 0, rfl⟩

/-- Where the data of an answer ends. -/
theorem answerData_yields_iff (hfit : type = dnsCname → NameFits chunk p)
    (hroom : type = dnsHost → datalen = 4 → p + 4 ≤ chunk.length) :
    (∃ found', Yields (fun n => answerData n chunk p found aname type datalen) (q, found')) ↔
      (type = dnsCname → NameEnds chunk p) ∧
        q = if type = dnsCname ∨ type = dnsHost then p + datalen else p := by
  unfold answerData
  by_cases hc : type = dnsCname
  · simp only [hc, if_true, true_implies, true_or]
    rw [← dnsParseName_yields_iff (hfit hc)]
    constructor
    · rintro ⟨found', h⟩
      obtain ⟨out, hout, n, hn⟩ := yields_of_bind h
      obtain ⟨rfl, -⟩ := Prod.mk.inj (Except.ok.inj hn)
      exact ⟨⟨out, hout⟩, rfl⟩
    · rintro ⟨⟨out, n, hn⟩, rfl⟩
      exact ⟨found, n, by simp only [hn, Slots.ok_bind]⟩
  · simp only [hc, if_false, false_implies, true_and, false_or]
    by_cases hh : type = dnsHost
    · simp only [hh, if_true]
      by_cases hd : datalen = 4
      · subst hd
        have hslice : slice Fault.outOfRange chunk p 4 = .ok ((chunk.drop p).take 4) :=
          slice_eq_ok_iff.mpr ⟨hroom hh rfl, rfl⟩
        simp only [if_true, hslice, Slots.ok_bind]
        exact yields_const_iff
      · simp only [hd, if_false]
        exact yields_const_iff
    · simp only [hh, if_false]
      exact yields_const_iff

/-- A safe answer is parsed up to what the source takes for its end. -/
theorem parseAnswer_yields_iff (hfit : AnswerFits chunk p) :
    (∃ found', Yields (fun n => parseAnswer n chunk p found) (q, found')) ↔
      AnswerEnds chunk p q := by
  obtain ⟨hname, hrest⟩ := hfit
  constructor
  · rintro ⟨found', h⟩
    obtain ⟨aname, haname, h⟩ := yields_of_bind h
    have hends := (dnsParseName_yields_iff hname).mp ⟨aname, haname⟩
    obtain ⟨type, ttl, datalen, ht, httl, hd, hfit, hroom⟩ := hrest hends
    have hdata : Yields (fun n => answerData n chunk (p + 12) found aname type datalen)
        (q, found') := by
      obtain ⟨n, hn⟩ := h
      simp only [be16_eq_ok_iff.mpr ht, be16_eq_ok_iff.mpr httl, be16_eq_ok_iff.mpr hd,
        Slots.ok_bind] at hn
      exact ⟨n, hn⟩
    obtain ⟨hcname, hq⟩ := (answerData_yields_iff hfit hroom).mp ⟨found', hdata⟩
    exact ⟨hends, type, datalen, ht, hd, hcname, hq⟩
  · rintro ⟨hends, type, datalen, ht, hd, hcname, hq⟩
    obtain ⟨aname, haname⟩ := (dnsParseName_yields_iff hname).mpr hends
    obtain ⟨type', ttl, datalen', ht', httl, hd', hfit, hroom⟩ := hrest hends
    obtain rfl := ht.unique ht'
    obtain rfl := hd.unique hd'
    obtain ⟨found', n, hn⟩ := (@answerData_yields_iff chunk (p + 12) q found aname type datalen
      hfit hroom).mpr ⟨hcname, hq⟩
    refine ⟨found', (stable_dnsParseName chunk p (Nat.zero_le _)).yields_bind haname
      (stable_answerRest chunk p found aname) ⟨n, ?_⟩⟩
    simp only [be16_eq_ok_iff.mpr ht, be16_eq_ok_iff.mpr httl, be16_eq_ok_iff.mpr hd,
      Slots.ok_bind]
    exact hn

theorem stable_parseAnswers (chunk : List UInt8) (k p : ℕ) (found : Found) :
    Stable Fault.outOfFuel fun n => parseAnswers n chunk k p found := by
  induction k generalizing p found with
  | zero => exact stable_const _
  | succ k ih => exact (stable_parseAnswer chunk p found).bind fun res => ih res.1 res.2

theorem parseAnswers_safe_iff {k : ℕ} :
    Safe Fault.outOfFuel (fun n => parseAnswers n chunk k p found) ↔ AnswersFit chunk k p := by
  induction k generalizing p found with
  | zero => exact iff_of_true (fun n e he => absurd he (by simp [parseAnswers])) trivial
  | succ k ih =>
    simp only [parseAnswers]
    rw [safe_bind_iff (stable_parseAnswer chunk p found)
      fun res => stable_parseAnswers chunk k res.1 res.2, parseAnswer_safe_iff, AnswersFit]
    refine and_congr_right fun hfit => ?_
    constructor
    · intro h q hq
      obtain ⟨found', hfound⟩ := (parseAnswer_yields_iff hfit).mpr hq
      exact ih.mp (h (q, found') hfound)
    · rintro h ⟨q, found'⟩ hfound
      exact ih.mpr (h q ((parseAnswer_yields_iff hfit).mp ⟨found', hfound⟩))

theorem stable_dnsParseResponse (buffer : List UInt8) :
    Stable Fault.outOfFuel fun n => dnsParseResponse n buffer :=
  (stable_const _).bind fun querys => (stable_const _).bind fun answers =>
    (stable_skipQuestions buffer querys 12).bind
      fun p => stable_parseAnswers buffer answers p ⟨0, []⟩

/-- **A response is parsed within the buffers** if and only if its bytes say so: no amount of fuel
comes to a fault. -/
theorem dnsParseResponse_safe_iff (buffer : List UInt8) :
    Safe Fault.outOfFuel (fun n => dnsParseResponse n buffer) ↔ ResponseFits buffer := by
  have hrest : ∀ querys answers, Stable Fault.outOfFuel fun n =>
      skipQuestions n buffer querys 12 >>= fun p => parseAnswers n buffer answers p ⟨0, []⟩ :=
    fun querys answers => (stable_skipQuestions buffer querys 12).bind
      fun p => stable_parseAnswers buffer answers p ⟨0, []⟩
  unfold dnsParseResponse
  rw [safe_const_bind_iff (be16_ne_error (by simp)) fun querys =>
    (stable_const _).bind fun answers => hrest querys answers]
  constructor
  · rintro ⟨querys, hq, h⟩
    rw [safe_const_bind_iff (be16_ne_error (by simp)) fun answers => hrest querys answers] at h
    obtain ⟨answers, ha, h⟩ := h
    rw [safe_bind_iff (stable_skipQuestions buffer querys 12)
      fun p => stable_parseAnswers buffer answers p ⟨0, []⟩, skipQuestions_safe_iff] at h
    obtain ⟨⟨p, hp⟩, h⟩ := h
    exact ⟨querys, answers, p, be16_eq_ok_iff.mp hq, be16_eq_ok_iff.mp ha, hp,
      parseAnswers_safe_iff.mp (h p (skipQuestions_yields_iff.mpr hp))⟩
  · rintro ⟨querys, answers, p, hq, ha, hp, hfit⟩
    refine ⟨querys, be16_eq_ok_iff.mpr hq, ?_⟩
    rw [safe_const_bind_iff (be16_ne_error (by simp)) fun answers => hrest querys answers]
    refine ⟨answers, be16_eq_ok_iff.mpr ha, ?_⟩
    rw [safe_bind_iff (stable_skipQuestions buffer querys 12)
      fun p => stable_parseAnswers buffer answers p ⟨0, []⟩, skipQuestions_safe_iff]
    refine ⟨⟨p, hp⟩, fun p' hp' => ?_⟩
    obtain rfl := (stable_skipQuestions buffer querys 12).yields_unique hp'
      (skipQuestions_yields_iff.mpr hp)
    exact parseAnswers_safe_iff.mpr hfit

end

end

/-- **The two ways out of the buffers**: the owner of the one answer has a label of 191 bytes, and
the labels of a question lead behind the end. -/
theorem not_safe_sample :
    dnsParseResponse 2 ([0, 0, 0, 0, 0, 0, 0, 1, 0, 0, 0, 0] ++ List.replicate 1012 191) =
        .error .overflow ∧
      dnsParseResponse 5 (List.replicate 1024 255) = .error .outOfRange := by
  decide +kernel

end Dns

end BackendStudy
