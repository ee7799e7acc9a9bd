import BackendStudy.Kmp.Table

/-!
# What the search finds

`kmp` keeps the longest prefix of the pattern that the text read so far ends with, or one that
leads on to the next character of the text after it has fallen back (`BackendStudy.Kmp.Reading`).
As no occurrence of the pattern ends in the part that has been read, the first one that ends is the
first one in the text (`BackendStudy.Kmp.kmpOf_exact`).

The positions and the length of the pattern are of type `int`. In a longer text the position
overflows, and the length of a longer pattern comes out as another one
(`BackendStudy.Kmp.not_kmpOf_exact`).
-/

namespace BackendStudy

namespace Kmp

open Slots Wire Border

/-- **The result of a search** for `P` in `T`: the first place where it occurs, or `-1`. -/
def FirstAt (T P : List UInt8) (r : ℤ) : Prop :=
  (∃ i : ℕ, IsLeast {i | At T i P} i ∧ r = i) ∨ (∀ i, ¬At T i P) ∧ r = -1

/-- **Before a turn of the loop** of `kmp`: the prefix of length `p` leads on to the next character,
and no occurrence of the pattern ends in the part of the text that has been read. -/
structure Reading (T P : List UInt8) (t p : ℕ) : Prop where
  leads : ∀ c, T[t]? = some c → Leads P (T.take t) c p
  part : p < P.length
  ahead : ∀ i, At T i P → t < i + P.length

section

variable {T P : List UInt8} {text pattern : CStr} {next : List ℕ} {c : UInt8}
  {i n t p fuel size : ℕ}

/-! ### Occurrences -/

theorem FirstAt.unique {r r' : ℤ} (h : FirstAt T P r) (h' : FirstAt T P r') : r = r' := by
  rcases h with ⟨i, hi, rfl⟩ | ⟨hnone, rfl⟩
  · rcases h' with ⟨j, hj, rfl⟩ | ⟨hnone, -⟩
    · rw [hi.unique hj]
    · exact absurd hi.1 (hnone i)
  · rcases h' with ⟨j, hj, -⟩ | ⟨-, rfl⟩
    · exact absurd hj.1 (hnone j)
    · rfl

/-- What occurs in a text is at the end of the text up to there. -/
theorem ends_of_at (h : At T i P) (hne : P ≠ []) :
    i + P.length ≤ T.length ∧ Ends P (T.take (i + P.length)) P.length := by
  have hlen := h.length_le
  have hpos := List.length_pos_iff.mpr hne
  rw [List.length_drop] at hlen
  refine ⟨by omega, le_refl _, ?_⟩
  rw [List.take_length, List.take_add, ← List.prefix_iff_eq_take.mp h]
  exact List.suffix_append _ _

theorem at_of_ends (h : Ends P (T.take n) P.length) (hn : n ≤ T.length) :
    P.length ≤ n ∧ At T (n - P.length) P := by
  obtain ⟨u, hu⟩ := h.2
  rw [List.take_length] at hu
  have hlen := congrArg List.length hu
  rw [List.length_append, List.length_take, Nat.min_eq_left hn] at hlen
  refine ⟨by omega, T.drop n, ?_⟩
  have hT : T = u ++ (P ++ T.drop n) := by
    rw [← List.append_assoc, hu, List.take_append_drop]
  have hcut : n - P.length = u.length := by omega
  rw [hcut]
  conv_rhs => rw [hT, List.drop_left]

/-! ### The loop -/

/-- At the end of the text nothing has been found. -/
theorem Reading.at_end (h : Reading T P T.length p) : ∀ i, ¬At T i P := by
  intro i hi
  have hne : P ≠ [] := List.length_pos_iff.mp ((Nat.zero_le p).trans_lt h.part)
  have hend := (ends_of_at hi hne).1
  have hahead := h.ahead i hi
  omega

/-- The next character, with the longest prefix that the text then ends with. -/
theorem Reading.goesOn {q : ℕ} (h : Reading T P t p) (hc : T[t]? = some c)
    (hq : IsGreatest {k | Ends P (T.take t ++ [c]) k} q) (hlt : q < P.length) :
    Reading T P (t + 1) q := by
  rw [← take_succ_eq hc] at hq
  refine ⟨fun d _ => leads_of_longest hq, hlt, fun i hi => ?_⟩
  have hahead := h.ahead i hi
  have hne : P ≠ [] := List.length_pos_iff.mp ((Nat.zero_le p).trans_lt h.part)
  have hends := (ends_of_at hi hne).2
  -- an occurrence that ends here would be longer than the longest prefix
  have hdiff : i + P.length ≠ t + 1 := by
    intro he
    rw [he] at hends
    exact absurd (hq.2 hends) (not_le.mpr hlt)
  omega

/-- The occurrence that ends with the next character is the first one. -/
theorem Reading.found (h : Reading T P t p) (hc : T[t]? = some c) (hd : P[p]? = some c)
    (hfull : p + 1 = P.length) : FirstAt T P ((t + 1 : ℕ) - (P.length : ℤ)) := by
  have hlt := (List.getElem?_eq_some_iff.mp hc).1
  have hends : Ends P (T.take t ++ [c]) (p + 1) := ((h.leads c hc).hit hd).1
  rw [← take_succ_eq hc, hfull] at hends
  obtain ⟨hle, hat⟩ := at_of_ends hends hlt
  refine Or.inl ⟨t + 1 - P.length, ⟨hat, fun i hi => ?_⟩, (Nat.cast_sub hle).symm⟩
  have hahead := h.ahead i hi
  omega

/-- **The loop of `kmp`** ends with the first occurrence. A turn goes on in the text, by which
`p` grows by at most one, or makes `p` smaller. -/
theorem kmpLoop_spec (hfalls : Falls pattern.chars next pattern.chars.length)
    (htext : text.strlen ≤ intMax) (hint : pattern.strlen ≤ intMax)
    (h : Reading text.chars pattern.chars t p) (ht : t ≤ text.chars.length)
    (hfuel : 2 * (text.chars.length - t) + p < fuel) :
    ∃ r, kmpLoop text pattern next fuel t p = .ok r ∧ FirstAt text.chars pattern.chars r := by
  -- by the fuel: each turn takes a character of the text or a shorter prefix
  induction fuel generalizing t p with
  | zero => exact absurd hfuel (Nat.not_lt_zero _)
  | succ fuel ih =>
    -- at the zero of the text nothing has been found
    rcases ht.eq_or_lt with rfl | hlt
    · refine ⟨-1, ?_, Or.inr ⟨h.at_end, rfl⟩⟩
      rw [kmpLoop, CStr.char_end, ok_bind, if_pos rfl]
    have hpart := h.part
    have hc : text.chars[t]? = some text.chars[t] := List.getElem?_eq_getElem hlt
    have hd : pattern.chars[p]? = some pattern.chars[p] := List.getElem?_eq_getElem hpart
    have hleads := h.leads _ hc
    rw [kmpLoop, CStr.char_of hc, ok_bind, if_neg (CStr.ne_zero hc), CStr.char_of hd, ok_bind]
    by_cases hcd : text.chars[t] ≠ pattern.chars[p]
    · have hmiss : pattern.chars[p]? ≠ some text.chars[t] := fun he =>
        hcd (Option.some.inj (he.symm.trans hd))
      rw [if_pos hcd]
      -- without a prefix to fall back to the next character starts anew
      by_cases hp : p = 0
      · subst hp
        rw [if_pos rfl, incr_of_lt (hlt.trans_le htext), ok_bind]
        exact ih (h.goesOn hc (hleads.miss hmiss) hpart) hlt (by omega)
      · obtain ⟨b, hget, hb⟩ := hfalls.entry (Nat.pos_of_ne_zero hp) hpart.le
        have hbp := lt_of_greatest hb
        rw [if_neg hp, hget, ok_bind]
        refine ih ⟨fun c hc' => ?_, hbp.trans hpart, h.ahead⟩ ht (by omega)
        obtain rfl := Option.some.inj (hc.symm.trans hc')
        exact hleads.fall hmiss hb
    · have hhit : pattern.chars[p]? = some text.chars[t] := by rw [hd, not_not.mp hcd]
      rw [if_neg hcd, incr_of_lt (hpart.trans_le hint), ok_bind, incr_of_lt (hlt.trans_le htext),
        ok_bind, CStr.patLen_of_le hint]
      -- the whole pattern, or a longer prefix to go on with
      by_cases hfull : p + 1 = pattern.strlen
      · rw [if_pos (congrArg Nat.cast hfull)]
        exact ⟨_, rfl, h.found hc hhit hfull⟩
      · rw [if_neg fun he => hfull (Nat.cast_injective he)]
        have hshort : p + 1 < pattern.chars.length := lt_of_le_of_ne hpart hfull
        exact ih (h.goesOn hc (hleads.hit hhit) hshort) hlt (by omega)

/-- **The search is exact**: with an array that has an entry for each character of the pattern,
`kmp` ends and returns the first place of the pattern in the text, or `-1` if there is none. -/
theorem kmpOf_exact (text : CStr) (htext : text.strlen ≤ intMax) (hne : pattern.chars ≠ [])
    (hint : pattern.strlen ≤ intMax) (hsize : pattern.strlen ≤ size) :
    ∃ r, FirstAt text.chars pattern.chars r ∧
      ∀ fuel, 2 * text.strlen + pattern.strlen < fuel → kmpOf size fuel text pattern = .ok r := by
  have hrun : ∀ fuel, 2 * text.strlen + pattern.strlen < fuel →
      ∃ r, kmpOf size fuel text pattern = .ok r ∧ FirstAt text.chars pattern.chars r := by
    intro fuel hfuel
    obtain ⟨next, hnext, hfalls⟩ := @makeNext_falls pattern (List.replicate size 0) fuel hne hint
      (by rwa [List.length_replicate]) (by omega)
    have hstart : Reading text.chars pattern.chars 0 0 := by
      refine ⟨fun c _ => leads_of_longest ⟨ends_zero, fun k hk => ?_⟩,
        List.length_pos_iff.mpr hne, fun i _ => ?_⟩
      · simpa using Ends.le_length hk
      · have hpos := List.length_pos_iff.mpr hne
        omega
    obtain ⟨r, hloop, hr⟩ := kmpLoop_spec hfalls htext hint hstart (Nat.zero_le _)
      (show 2 * (text.chars.length - 0) + 0 < fuel by rw [CStr.strlen] at hfuel; omega)
    refine ⟨r, ?_, hr⟩
    rw [kmpOf, hnext, ok_bind, hloop]
  obtain ⟨r, -, hr⟩ := hrun _ (Nat.lt_succ_self _)
  refine ⟨r, hr, fun fuel hfuel => ?_⟩
  obtain ⟨r', hrun', hr'⟩ := hrun fuel hfuel
  rw [hrun', hr'.unique hr]

/-! ### Texts and patterns that are too long -/

/-- A text without the first character of the pattern is read up to the greatest `int`, and no
further. -/
theorem kmpLoop_far {d : UInt8} (hd : pattern.chars[0]? = some d) (hcd : c ≠ d)
    (hc : ∀ t ≤ intMax, text.chars[t]? = some c) (ht : t ≤ intMax) (r : ℤ) :
    kmpLoop text pattern next fuel t 0 ≠ .ok r := by
  induction fuel generalizing t with
  | zero => exact fun hr => nomatch hr
  | succ fuel ih =>
    rw [kmpLoop, CStr.char_of (hc t ht), ok_bind, if_neg (CStr.ne_zero (hc t ht)),
      CStr.char_of hd, ok_bind, if_pos hcd, if_pos rfl]
    by_cases hlt : t < intMax
    · rw [incr_of_lt hlt, ok_bind]
      exact ih hlt
    · unfold incr
      rw [if_neg hlt, error_bind]
      exact fun hr => nomatch hr

/-- With a length that comes out as one, the first character is all that is compared. -/
theorem kmpLoop_short (hc : text.chars[0]? = some c) (hd : pattern.chars[0]? = some c)
    (hshort : pattern.patLen = 1) : kmpLoop text pattern next (fuel + 1) 0 0 = .ok 0 := by
  have hstep : incr 0 = .ok 1 := incr_of_lt (by decide)
  rw [kmpLoop, CStr.char_of hc, ok_bind, if_neg (CStr.ne_zero hc), CStr.char_of hd, ok_bind,
    if_neg (not_not.mpr rfl), hstep, ok_bind, ok_bind, hshort]
  rfl

/-- A length of `4294967297` comes out as one. -/
theorem patLen_round {s : CStr} (h : s.strlen = 4294967297) : s.patLen = 1 := by
  unfold CStr.patLen
  rw [h]
  simp [Int.bmod]

/-- **Texts and patterns that are too long**: in a text of 2147483648 times `b` the search for `a`
never ends with a result, and a pattern of 4294967297 times `a` is found in `a`. -/
theorem not_kmpOf_exact :
    (∃ text pattern : CStr, pattern.chars ≠ [] ∧ pattern.strlen ≤ 20 ∧
      ∀ fuel r, kmpOf 20 fuel text pattern ≠ .ok r) ∧
    ∃ text pattern : CStr, ∃ size, pattern.chars ≠ [] ∧ pattern.strlen ≤ size ∧
      ∀ fuel r, kmpOf size fuel text pattern = .ok r → ¬FirstAt text.chars pattern.chars r := by
  constructor
  · -- every position of the text is passed, and the last one is the greatest `int`
    obtain ⟨n, hn⟩ : ∃ n, n = 2147483648 := ⟨_, rfl⟩
    refine ⟨repeated n 98 (by decide), repeated 1 97 (by decide), by decide, by decide,
      fun fuel r => ?_⟩
    have hshort : CStr.patLen (repeated 1 97 (by decide)) = 1 := CStr.patLen_of_le (by decide)
    rw [kmpOf, makeNext_short (by rw [hshort]; rfl) (by decide), ok_bind]
    refine kmpLoop_far (c := 98) (d := 97) rfl (by decide) (fun t ht => ?_) (Nat.zero_le _) r
    unfold intMax at ht
    exact List.getElem?_replicate_of_lt (by omega)
  · -- the length comes out as one, and after one character the pattern is taken to be found
    obtain ⟨n, hn⟩ : ∃ n, n = 4294967297 := ⟨_, rfl⟩
    have hshort := patLen_round ((strlen_repeated n 97 (by decide)).trans hn)
    refine ⟨repeated 1 97 (by decide), repeated n 97 (by decide), n, ?_, by rw [strlen_repeated],
      fun fuel r hrun hfirst => ?_⟩
    · rw [← List.length_pos_iff, repeated, List.length_replicate]
      omega
    rw [kmpOf, makeNext_short (by rw [hshort]; rfl) (by rw [List.length_replicate]; omega),
      ok_bind] at hrun
    cases fuel with
    | zero => cases hrun
    | succ fuel =>
      have hd : (repeated n 97 (by decide)).chars[0]? = some 97 :=
        List.getElem?_replicate_of_lt (by omega)
      rw [kmpLoop_short rfl hd hshort] at hrun
      obtain rfl := Except.ok.inj hrun
      rcases hfirst with ⟨i, hi, -⟩ | ⟨-, hr⟩
      · have hlen := hi.1.length_le
        rw [List.length_drop, repeated, repeated, List.length_replicate,
          List.length_replicate] at hlen
        omega
      · exact absurd hr (by decide)

end

/-! ### The strings of the demo -/

/-- The text of the demo, `eabcabcabcabcabcdabc`. -/
def sampleText : CStr where
  chars := [101, 97, 98, 99, 97, 98, 99, 97, 98, 99, 97, 98, 99, 97, 98, 99, 100, 97, 98, 99]
  nul := by decide

/-- The pattern of the demo, `abcabcd`. -/
def samplePattern : CStr where
  chars := [97, 98, 99, 97, 98, 99, 100]
  nul := by decide

theorem kmpOf_exact_sample : ∃ r, FirstAt sampleText.chars samplePattern.chars r ∧
    ∀ fuel, 2 * sampleText.strlen + samplePattern.strlen < fuel →
      kmpOf 20 fuel sampleText samplePattern = .ok r :=
  kmpOf_exact sampleText (by decide) (by decide) (by decide) (by decide)

example : kmp 60 sampleText samplePattern = .ok 10 := by decide

end Kmp

end BackendStudy
