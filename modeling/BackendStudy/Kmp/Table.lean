import BackendStudy.Kmp.Model
import BackendStudy.Lib.Border

/-!
# The array to fall back with

`make_next` searches for the pattern in its own tail: the prefix that it keeps is the longest one
that ends the tail so far, which is the longest border of the pattern so far
(`BackendStudy.Border.border_take_succ`). It falls back with the entries it has filled
(`BackendStudy.Kmp.fallBack_spec`), so that each entry is the length of the longest border up to
it (`BackendStudy.Kmp.Falls`). The disabled `make_next` tries the lengths one after the other and
comes to the same entries (`BackendStudy.Kmp.makeNext_longest`).

This is so for patterns whose length is an `int`. A longer pattern has a negative number for its
length, and no entry but the first is written (`BackendStudy.Kmp.not_makeNext_longest`).
-/

namespace BackendStudy

namespace Kmp

open Slots Wire Border

/-- **The entries in front of the place `n`** are the lengths of the longest borders. -/
def Falls (P : List UInt8) (next : List ℕ) (n : ℕ) : Prop :=
  ∀ i < n, ∃ b, next[i]? = some b ∧ IsGreatest {k | IsBorder (P.take (i + 1)) k} b

section

variable {s pattern : CStr} {W : List UInt8} {next : List ℕ} {c : UInt8} {i k n fuel subPatLen : ℕ}

/-! ### Characters -/

theorem CStr.char_of (h : s.chars[i]? = some c) : s.char i = .ok c := by
  refine get_of_getElem? ?_
  rw [CStr.bytes, List.getElem?_append_left (List.getElem?_eq_some_iff.mp h).1]
  exact h

/-- A length that is an `int` is as it is. -/
theorem CStr.patLen_of_le (h : s.strlen ≤ intMax) : s.patLen = s.strlen := by
  unfold intMax at h
  unfold CStr.patLen
  exact Int.bmod_eq_of_le (by omega) (by omega)

theorem incr_of_lt (h : n < intMax) : incr n = .ok (n + 1) := by
  unfold incr
  rw [if_pos h]

theorem CStr.char_end : s.char s.chars.length = .ok 0 := get_at rfl

theorem CStr.ne_zero (h : s.chars[i]? = some c) : c ≠ 0 := by
  rintro rfl
  exact s.nul (List.mem_of_getElem? h)

/-- What lies within the string is read from its characters. -/
theorem CStr.slice_of (h : i + n ≤ s.strlen) :
    slice Fault.outOfRange s.bytes i n = .ok ((s.chars.drop i).take n) := by
  have hfit : i + n ≤ s.bytes.length := by
    rw [CStr.bytes, List.length_append]
    exact h.trans (Nat.le_add_right _ _)
  rw [CStr.strlen] at h
  rw [slice, if_pos hfit, CStr.bytes, List.drop_append_of_le_length (by omega),
    List.take_append_of_le_length (by rw [List.length_drop]; omega)]

/-! ### Falling back -/

/-- The entry to fall back with. -/
theorem Falls.entry (h : Falls pattern.chars next n) (hk : 0 < k) (hkn : k ≤ n) :
    ∃ b, get Fault.outOfRange next (k - 1) = .ok b ∧
      IsGreatest {j | IsBorder (pattern.chars.take k) j} b := by
  obtain ⟨b, hb, hgreatest⟩ := h (k - 1) (by omega)
  rw [Nat.sub_add_cancel hk] at hgreatest
  exact ⟨b, get_of_getElem? hb, hgreatest⟩

theorem lt_of_greatest {b : ℕ} (h : IsGreatest {j | IsBorder (pattern.chars.take k) j} b) :
    b < k := by
  have hlt := h.1.1
  rw [List.length_take] at hlt
  omega

/-- **The loop that falls back** stops at a prefix that goes on, or at the empty one. -/
theorem fallBack_spec (hfalls : Falls pattern.chars next n) (hc : pattern.char i = .ok c)
    (h : Leads pattern.chars W c k) (hk : k < pattern.chars.length) (hkn : k ≤ n)
    (hfuel : k < fuel) :
    ∃ k', fallBack pattern next i fuel k = .ok k' ∧ Leads pattern.chars W c k' ∧ k' ≤ k ∧
      (pattern.chars[k']? = some c ∨ k' = 0) := by
  induction fuel generalizing k with
  | zero => exact absurd hfuel (Nat.not_lt_zero k)
  | succ fuel ih =>
    by_cases hpos : k > 0
    · have hd : pattern.chars[k]? = some pattern.chars[k] := List.getElem?_eq_getElem hk
      by_cases hcd : c ≠ pattern.chars[k]
      · obtain ⟨b, hget, hb⟩ := hfalls.entry hpos hkn
        have hbk := lt_of_greatest hb
        have hmiss : pattern.chars[k]? ≠ some c := fun he =>
          hcd (Option.some.inj (he.symm.trans hd))
        obtain ⟨k', hrun, hleads, hle, hend⟩ :=
          ih (h.fall hmiss hb) (hbk.trans hk) (by omega) (by omega)
        refine ⟨k', ?_, hleads, hle.trans hbk.le, hend⟩
        rw [fallBack, if_pos hpos, hc, ok_bind, CStr.char_of hd, ok_bind, if_pos hcd, hget, ok_bind,
          hrun]
      · refine ⟨k, ?_, h, le_refl k, Or.inl ?_⟩
        · rw [fallBack, if_pos hpos, hc, ok_bind, CStr.char_of hd, ok_bind, if_neg hcd]
        · rw [hd, not_not.mp hcd]
    · refine ⟨k, ?_, h, le_refl k, Or.inr (by omega)⟩
      rw [fallBack, if_neg hpos]

/-! ### Filling the array -/

/-- Before the round of the loop at `n`: `prefixTail` is the longest prefix that ends the tail,
and the entries in front of `n` are filled. -/
structure Filling (P : List UInt8) (size n : ℕ) (s : ℕ × List ℕ) : Prop where
  longest : IsGreatest {k | Ends P (P.tail.take (n - 1)) k} s.1
  falls : Falls P s.2 n
  size : s.2.length = size

theorem Falls.set (h : Falls pattern.chars next n) {b : ℕ} (hn : n < next.length)
    (hb : IsGreatest {k | IsBorder (pattern.chars.take (n + 1)) k} b) :
    Falls pattern.chars (next.set n b) (n + 1) := by
  intro i hi
  by_cases hin : i = n
  · subst hin
    exact ⟨b, List.getElem?_set_self hn, hb⟩
  · rw [List.getElem?_set_ne (Ne.symm hin)]
    exact h i (by omega)

theorem Filling.step {size : ℕ} {st : ℕ × List ℕ} (h : Filling pattern.chars size n st)
    (hn : 1 ≤ n) (hlen : n < pattern.chars.length) (hsize : pattern.chars.length ≤ size)
    (hint : pattern.strlen ≤ intMax)
    (hfuel : pattern.chars.length ≤ fuel) :
    ∃ st', makeNextBody fuel pattern n st = .ok st' ∧ Filling pattern.chars size (n + 1) st' := by
  obtain ⟨prefixTail, next⟩ := st
  obtain ⟨hlongest, hfalls, hcap⟩ := h
  simp only at hlongest hfalls hcap
  have hlt : prefixTail < n := by
    have hle := hlongest.1.le_length
    rw [List.length_take] at hle
    omega
  have hc : pattern.chars[n]? = some pattern.chars[n] := List.getElem?_eq_getElem hlen
  -- the tail with the next character
  have htail : pattern.chars.tail.take n =
      pattern.chars.tail.take (n - 1) ++ [pattern.chars[n]] := by
    obtain ⟨m, rfl⟩ : ∃ m, n = m + 1 := ⟨n - 1, by omega⟩
    refine take_succ_eq ?_
    rw [List.getElem?_tail, hc]
  obtain ⟨k, hrun, hleads, hle, hend⟩ := fallBack_spec hfalls (CStr.char_of hc)
    (leads_of_longest hlongest) (by omega) hlt.le (show prefixTail < fuel by omega)
  have hk : k < pattern.chars.length := by omega
  have hd : pattern.chars[k]? = some pattern.chars[k] := List.getElem?_eq_getElem hk
  have hgreatest : IsGreatest {j | Ends pattern.chars (pattern.chars.tail.take n) j}
      (if pattern.chars[n] = pattern.chars[k] then k + 1 else k) := by
    rw [htail]
    split_ifs with he
    · exact hleads.hit (hd.trans (congrArg some he.symm))
    · have hmiss : pattern.chars[k]? ≠ some pattern.chars[n] := fun hne =>
        he (Option.some.inj (hne.symm.trans hd))
      obtain rfl := hend.resolve_left hmiss
      exact hleads.miss hmiss
  obtain ⟨b, hb⟩ : ∃ b, b = if pattern.chars[n] = pattern.chars[k] then k + 1 else k := ⟨_, rfl⟩
  rw [← hb] at hgreatest
  have hborder : IsGreatest {j | IsBorder (pattern.chars.take (n + 1)) j} b := by
    have hset : {j | IsBorder (pattern.chars.take (n + 1)) j} =
        {j | Ends pattern.chars (pattern.chars.tail.take n) j} :=
      Set.ext fun j => border_take_succ hlen
    rw [hset]
    exact hgreatest
  have hput : put Fault.outOfRange next n b = .ok (next.set n b) := if_pos (by omega)
  refine ⟨(b, next.set n b), ?_, hgreatest, hfalls.set (by omega) hborder, by simpa using hcap⟩
  have hincr : (if pattern.chars[n] = pattern.chars[k] then incr k else .ok k) = .ok b := by
    rw [hb, incr_of_lt (lt_of_lt_of_le hk hint)]
    split_ifs <;> rfl
  rw [makeNextBody, hrun, ok_bind, CStr.char_of hc, ok_bind, CStr.char_of hd, ok_bind, hincr,
    ok_bind, hput]
  rfl

/-- **`make_next`** fills the array. -/
theorem makeNext_falls (hne : pattern.chars ≠ []) (hint : pattern.strlen ≤ intMax)
    (hsize : pattern.strlen ≤ next.length) (hfuel : pattern.strlen ≤ fuel) :
    ∃ next', makeNext fuel pattern next = .ok next' ∧ Falls pattern.chars next' pattern.strlen := by
  have hcount : (pattern.patLen - 1).toNat = pattern.strlen - 1 := by
    rw [CStr.patLen_of_le hint]
    omega
  rw [CStr.strlen] at hsize hfuel
  have hpos := List.length_pos_iff.mpr hne
  have hput : put Fault.outOfRange next 0 0 = .ok (next.set 0 0) := if_pos (by omega)
  -- the first entry
  have hfirst : IsGreatest {k | IsBorder (pattern.chars.take (0 + 1)) k} 0 := by
    refine ⟨(border_take_succ hpos).mpr ends_zero, fun k hk => ?_⟩
    have hle := ((border_take_succ hpos).mp hk).le_length
    simpa using hle
  have hstart : Filling pattern.chars next.length 1 (0, next.set 0 0) := by
    refine ⟨⟨ends_zero, fun k hk => ?_⟩, ?_, List.length_set⟩
    · simpa using Ends.le_length hk
    · have hnil : Falls pattern.chars next 0 := fun i hi => absurd hi (Nat.not_lt_zero i)
      exact hnil.set (by omega) hfirst
  obtain ⟨⟨prefixTail, next'⟩, hloop, hfilled⟩ :=
    @forUp_induct _ _ (makeNextBody fuel pattern) _ _ (pattern.strlen - 1) _ hstart
      fun i st hi hlt h => h.step hi (by rw [CStr.strlen] at hlt; omega) hsize hint hfuel
  refine ⟨next', ?_, ?_⟩
  · rw [makeNext, hput, ok_bind, hcount, hloop]
    rfl
  · rw [CStr.strlen] at hfilled ⊢
    rw [show pattern.chars.length = 1 + (pattern.chars.length - 1) by omega]
    exact hfilled.falls

/-! ### The disabled function -/

/-- A length is one of a border if the characters at both ends agree. -/
theorem isBorder_iff {P : List UInt8} (hn : n ≤ P.length) (hk : k < n) :
    IsBorder (P.take n) k ↔ P.take k = (P.drop (n - k)).take k := by
  have hlen : (P.take n).length = n := by rw [List.length_take, Nat.min_eq_left hn]
  have htake : (P.take k).length = k := by rw [List.length_take]; omega
  rw [IsBorder, hlen, List.take_take, Nat.min_eq_left hk.le, List.suffix_iff_eq_drop, hlen, htake,
    List.drop_take, Nat.sub_sub_self hk.le]
  exact and_iff_right hk

/-- The inner loop finds the longest border, if it starts above all of them. -/
theorem longestMatch_spec (hi : i < pattern.chars.length) (hnext : i < next.length)
    (hsub : subPatLen ≤ i) (hzero : next[i]? = some 0)
    (hmax : ∀ k, IsBorder (pattern.chars.take (i + 1)) k → k ≤ subPatLen) :
    ∃ next' b, longestMatch pattern i subPatLen next = .ok next' ∧ next' = next.set i b ∧
      IsGreatest {k | IsBorder (pattern.chars.take (i + 1)) k} b := by
  -- by the length that is tried, which no border exceeds
  induction subPatLen with
  | zero =>
    have hborder : IsBorder (pattern.chars.take (i + 1)) 0 := (border_take_succ hi).mpr ends_zero
    refine ⟨next, 0, rfl, ?_, hborder, fun k hk => hmax k hk⟩
    refine List.ext_getElem? fun j => ?_
    by_cases hij : i = j
    · subst hij
      rw [hzero, List.getElem?_set_self hnext]
    · rw [List.getElem?_set_ne hij]
  | succ subPatLen ih =>
    have hfront := @CStr.slice_of pattern 0 (subPatLen + 1) (by rw [CStr.strlen]; omega)
    have hrear := @CStr.slice_of pattern (i - subPatLen) (subPatLen + 1)
      (by rw [CStr.strlen]; omega)
    -- the comparison of the source is that of a prefix with a suffix
    have hiff : IsBorder (pattern.chars.take (i + 1)) (subPatLen + 1) ↔
        pattern.chars.take (subPatLen + 1) =
          (pattern.chars.drop (i - subPatLen)).take (subPatLen + 1) := by
      rw [isBorder_iff (show i + 1 ≤ pattern.chars.length from hi) (by omega),
        Nat.add_sub_add_right]
    rw [longestMatch, hfront, ok_bind, hrear, ok_bind, List.drop_zero]
    by_cases he : pattern.chars.take (subPatLen + 1) =
        (pattern.chars.drop (i - subPatLen)).take (subPatLen + 1)
    · rw [if_pos he]
      exact ⟨_, subPatLen + 1, if_pos hnext, rfl, hiff.mpr he, fun k hk => hmax k hk⟩
    · rw [if_neg he]
      refine ih (by omega) fun k hk => ?_
      have hle := hmax k hk
      have hne : k ≠ subPatLen + 1 := by
        rintro rfl
        exact he (hiff.mp hk)
      omega

/-- **The disabled `make_next`** fills all entries but the last. -/
theorem makeNextDisabled_falls (hint : pattern.strlen ≤ intMax)
    (hsize : pattern.strlen ≤ next.length) :
    ∃ next', makeNextDisabled pattern next = .ok next' ∧
      Falls pattern.chars next' (pattern.strlen - 1) := by
  have hlen := CStr.patLen_of_le hint
  have hcount : (pattern.patLen - 1).toNat = pattern.strlen - 1 := by
    rw [hlen]
    omega
  rw [CStr.strlen] at hsize
  have hstart : next.length = next.length ∧ Falls pattern.chars next 0 :=
    ⟨rfl, fun i hi => absurd hi (Nat.not_lt_zero i)⟩
  -- the outer loop keeps the length of the array, and the entries so far are right
  have hloop : ∃ a, makeNextDisabled pattern next = .ok a ∧ a.length = next.length ∧
      Falls pattern.chars a (0 + (pattern.strlen - 1)) := by
    rw [makeNextDisabled, if_neg (by rw [hlen, intMax]; omega), hcount]
    refine @forUp_induct _ _ _ (fun n a => a.length = next.length ∧ Falls pattern.chars a n)
      _ _ _ hstart ?_
    rintro i a - hlt ⟨hlen, hfalls⟩
    rw [CStr.strlen] at hlt
    have hput : put Fault.outOfRange a i 0 = .ok (a.set i 0) := if_pos (by omega)
    have hcap : i < (a.set i 0).length := by
      rw [List.length_set]
      omega
    have hmax : ∀ k, IsBorder (pattern.chars.take (i + 1)) k → k ≤ i := fun k hk => by
      have hle := ((border_take_succ (by omega)).mp hk).le_length
      rw [List.length_take] at hle
      omega
    obtain ⟨a', b, hrun, rfl, hb⟩ := longestMatch_spec (by omega) hcap (le_refl i)
      (List.getElem?_set_self (by omega)) hmax
    refine ⟨(a.set i 0).set i b, ?_, ?_, ?_⟩
    · simp only [hput, ok_bind]
      exact hrun
    · rw [List.length_set, List.length_set, hlen]
    · rw [List.set_set]
      exact hfalls.set (by omega) hb
  obtain ⟨a, hrun, -, hfalls⟩ := hloop
  rw [Nat.zero_add] at hfalls
  exact ⟨a, hrun, hfalls⟩

/-- **Each entry is the longest border**, for a pattern whose length is an `int`: `make_next` ends,
the entry `i` is the length of the longest proper prefix of the pattern up to `i` that is a suffix
of it, and in front of the last place this is the entry of the disabled `make_next`. -/
theorem makeNext_longest (hne : pattern.chars ≠ []) (hint : pattern.strlen ≤ intMax)
    (hsize : pattern.strlen ≤ next.length) (hfuel : pattern.strlen ≤ fuel) :
    ∃ next', makeNext fuel pattern next = .ok next' ∧
      (∀ i < pattern.strlen, ∃ b, next'[i]? = some b ∧
        IsGreatest {k | IsBorder (pattern.chars.take (i + 1)) k} b) ∧
      ∃ disabled, makeNextDisabled pattern next = .ok disabled ∧
        ∀ i < pattern.strlen - 1, disabled[i]? = next'[i]? := by
  obtain ⟨next', hrun, hfalls⟩ := makeNext_falls hne hint hsize hfuel
  obtain ⟨disabled, hrun', hfalls'⟩ := makeNextDisabled_falls hint hsize
  refine ⟨next', hrun, hfalls, disabled, hrun', fun i hi => ?_⟩
  obtain ⟨b, hb, hgreatest⟩ := hfalls i (by omega)
  obtain ⟨b', hb', hgreatest'⟩ := hfalls' i hi
  rw [hb, hb', hgreatest'.unique hgreatest]

/-- Of a pattern whose length comes out as one, or below, the first entry is written. -/
theorem makeNext_short (h : (pattern.patLen - 1).toNat = 0) (hsize : 0 < next.length) :
    makeNext fuel pattern next = .ok (next.set 0 0) := by
  rw [makeNext, put, if_pos hsize, ok_bind, h, forUp, ok_bind]

end

/-- A string of one character. -/
def repeated (n : ℕ) (c : UInt8) (h : c ≠ 0) : CStr where
  chars := List.replicate n c
  nul hmem := h (List.eq_of_mem_replicate hmem).symm

@[simp] theorem strlen_repeated (n : ℕ) (c : UInt8) (h : c ≠ 0) : (repeated n c h).strlen = n :=
  List.length_replicate

/-- `2147483648` is the least `int`. -/
theorem patLen_far {s : CStr} (h : s.strlen = 2147483648) : (s.patLen - 1).toNat = 0 := by
  unfold CStr.patLen
  rw [h]
  simp [Int.bmod]

/-- **A pattern that is too long**: of the array for a pattern of 2147483648 times `a` only the
first entry is written, so that the second one is zero, and not the length one of its border. -/
theorem not_makeNext_longest : ∃ pattern : CStr, ∃ next : List ℕ, pattern.chars ≠ [] ∧
    pattern.strlen ≤ next.length ∧ ∀ fuel next', makeNext fuel pattern next = .ok next' →
      ¬∃ b, next'[1]? = some b ∧ IsGreatest {k | IsBorder (pattern.chars.take (1 + 1)) k} b := by
  obtain ⟨n, hn⟩ : ∃ n, n = 2147483648 := ⟨_, rfl⟩
  refine ⟨repeated n 97 (by decide), List.replicate n 0, ?_, ?_, fun fuel next' hrun => ?_⟩
  · rw [← List.length_pos_iff, repeated, List.length_replicate]
    omega
  · rw [strlen_repeated, List.length_replicate]
  · have hcount := patLen_far ((strlen_repeated n 97 (by decide)).trans hn)
    rw [makeNext_short hcount (by rw [List.length_replicate]; omega)] at hrun
    obtain rfl := Except.ok.inj hrun
    rintro ⟨b, hb, hgreatest⟩
    have htake : (repeated n 97 (by decide)).chars.take (1 + 1) = [97, 97] := by
      rw [repeated, List.take_replicate, Nat.min_eq_left (by omega)]
      rfl
    rw [List.getElem?_set_ne (by decide), List.getElem?_replicate, if_pos (by omega)] at hb
    obtain rfl := Option.some.inj hb
    rw [htake] at hgreatest
    have hborder : IsBorder [(97 : UInt8), 97] 1 := ⟨by decide, by decide⟩
    exact absurd (hgreatest.2 hborder) (by decide)

/-- The pattern that the demo prints the entries of, `abcdababc`. -/
def sampleWord : CStr where
  chars := [97, 98, 99, 100, 97, 98, 97, 98, 99]
  nul := by decide

theorem makeNext_longest_sample :
    ∃ next', makeNext 20 sampleWord (List.replicate 20 0) = .ok next' ∧
      (∀ i < sampleWord.strlen, ∃ b, next'[i]? = some b ∧
        IsGreatest {k | IsBorder (sampleWord.chars.take (i + 1)) k} b) ∧
      ∃ disabled, makeNextDisabled sampleWord (List.replicate 20 0) = .ok disabled ∧
        ∀ i < sampleWord.strlen - 1, disabled[i]? = next'[i]? :=
  makeNext_longest (by decide) (by decide) (by decide) (by decide)

end Kmp

end BackendStudy
