import BackendStudy.Stack.Model
import BackendStudy.Lib.Tokens
import Mathlib.Data.Nat.Digits.Defs

/-!
# Reading the address of a card

The address of a network card is written as six groups of one or two hexadecimal digits, with
colons between them (`BackendStudy.Stack.IsMac`). `str2mac` passes over such a string with the
value of the group at hand, and stores it at each colon and at the end. It turns back at a
character that is no digit, and at what follows the sixth colon, but it never looks at how many
digits a group has, and at the end takes any place in `mac` for the last one
(`BackendStudy.Stack.str2mac_eq_zero_iff`).

So of the strings with digits and at most five colons it accepts all
(`BackendStudy.Stack.acceptsMac_iff`), such as one of three groups only
(`BackendStudy.Stack.not_acceptsMac_sample`).
-/

namespace BackendStudy

namespace Stack

open Wire Tokens

/-! ### Addresses -/

/-- The hexadecimal digits. -/
def hexDigits : List Char := "0123456789abcdefABCDEF".toList

/-- The value of a digit. -/
def digitValue (c : Char) : ℕ := hexDigits.idxOf c.toLower

/-- The value of a group of digits. -/
def groupValue (g : List Char) : ℕ := Nat.ofDigits 16 (g.map digitValue).reverse

/-- **The string is an address** with these groups. -/
structure IsMac (gs : List (List Char)) (macstr : List Char) : Prop where
  six : gs.length = 6
  size : ∀ g ∈ gs, g.length = 1 ∨ g.length = 2
  digits : ∀ g ∈ gs, ∀ c ∈ g, c ∈ hexDigits
  joined : macstr = [':'].intercalate gs

/-- **`str2mac` accepts the string exactly if it is an address**, and writes the address. -/
structure AcceptsMac (mac : List UInt8) (macstr : List Char) : Prop where
  accepts : (str2mac mac macstr).1 = 0 ↔ ∃ gs, IsMac gs macstr
  writes : ∀ gs, IsMac gs macstr →
    ((str2mac mac macstr).2.take 6).map UInt8.toNat = gs.map groupValue
  rejects : (¬∃ gs, IsMac gs macstr) → (str2mac mac macstr).1 = -1

/-- The byte that a group comes to behind the digits of `val`. -/
def groupByte (val : UInt8) (g : List Char) : UInt8 :=
  g.foldl (fun v c => (v <<< 4) + UInt8.ofNat (digitValue c)) val

section

variable {mac : List UInt8} {macstr g p : List Char} {gs : List (List Char)} {c : Char}
  {val d : UInt8} {idx : ℕ}

/-! ### Digits -/

theorem hexDigit?_of_mem (h : c ∈ hexDigits) :
    hexDigit? c = some (UInt8.ofNat (digitValue c)) := by
  have hall : ∀ c ∈ hexDigits, hexDigit? c = some (UInt8.ofNat (digitValue c)) := by
    rw [← List.forall_iff_forall_mem]
    decide
  exact hall c h

theorem digitValue_lt (h : c ∈ hexDigits) : digitValue c < 16 := by
  have hall : ∀ c ∈ hexDigits, digitValue c < 16 := by
    rw [← List.forall_iff_forall_mem]
    decide
  exact hall c h

theorem colon_notMem : ':' ∉ hexDigits := by decide

theorem mem_of_hexDigit? (h : hexDigit? c = some d) : c ∈ hexDigits := by
  have hsmall : ∀ n < 103, hexDigit? (Char.ofNat n) ≠ none → Char.ofNat n ∈ hexDigits := by decide
  have hle : c.toNat < 103 := by
    unfold hexDigit? at h
    split_ifs at h with hlower hupper hdigit
    · exact Nat.lt_succ_of_le hlower.2
    · exact (Nat.lt_succ_of_le hupper.2).trans (by decide)
    · exact (Nat.lt_succ_of_le hdigit.2).trans (by decide)
  have hmem := hsmall c.toNat hle
  rw [Char.ofNat_toNat, h] at hmem
  exact hmem (by simp)

theorem hexDigit?_eq_none_iff : hexDigit? c = none ↔ c ∉ hexDigits := by
  constructor
  · intro h hmem
    rw [hexDigit?_of_mem hmem] at h
    simp at h
  · intro h
    cases hc : hexDigit? c with
    | none => rfl
    | some d => exact absurd (mem_of_hexDigit? hc) h

/-- A group of one or two digits has room in a byte. -/
theorem groupByte_toNat (hsize : g.length = 1 ∨ g.length = 2) (h : ∀ c ∈ g, c ∈ hexDigits) :
    (groupByte 0 g).toNat = groupValue g := by
  rcases hsize with hone | htwo
  · obtain ⟨c, rfl⟩ := List.length_eq_one_iff.mp hone
    have hc := digitValue_lt (h c List.mem_cons_self)
    simp [groupByte, groupValue]
    omega
  · obtain ⟨c, c', rfl⟩ := List.length_eq_two.mp htwo
    have hc := digitValue_lt (h c List.mem_cons_self)
    have hc' := digitValue_lt (h c' (List.mem_cons_of_mem _ List.mem_cons_self))
    simp [groupByte, groupValue, Nat.ofDigits]
    omega

/-! ### The scanner -/

/-- A digit. -/
theorem str2macFrom_digit (hidx : idx < 6) (hc : c ∈ hexDigits) :
    str2macFrom mac idx val (c :: p) =
      str2macFrom mac idx ((val <<< 4) + UInt8.ofNat (digitValue c)) p := by
  have hcolon : c ≠ ':' := by
    rintro rfl
    exact colon_notMem hc
  rw [str2macFrom, if_pos hidx, if_pos hcolon, hexDigit?_of_mem hc]

/-- A colon. -/
theorem str2macFrom_colon (hidx : idx < 6) :
    str2macFrom mac idx val (':' :: p) = str2macFrom (mac.set idx val) (idx + 1) 0 p := by
  rw [str2macFrom, if_pos hidx, if_neg (not_not_intro rfl)]

/-- The digits of a group. -/
theorem str2macFrom_group (hidx : idx < 6) (h : ∀ c ∈ g, c ∈ hexDigits) :
    str2macFrom mac idx val (g ++ p) = str2macFrom mac idx (groupByte val g) p := by
  induction g generalizing val with
  | nil => rfl
  | cons c g ih =>
    rw [List.cons_append, str2macFrom_digit hidx (h c List.mem_cons_self),
      ih fun c' hc' => h c' (List.mem_cons_of_mem c hc')]
    rfl

/-- **Groups with colons between them** are stored one after the other. -/
theorem str2macFrom_groups (hmac : 6 ≤ mac.length) (hidx : idx + gs.length < 6)
    (h : ∀ g' ∈ g :: gs, ∀ c ∈ g', c ∈ hexDigits) :
    str2macFrom mac idx 0 ([':'].intercalate (g :: gs)) =
      (0, patch mac idx ((g :: gs).map (groupByte 0))) := by
  induction gs generalizing mac idx g with
  | nil =>
    have hg := h g List.mem_cons_self
    have hlt : idx < 6 := by simpa using hidx
    have hgroup := @str2macFrom_group mac g [] 0 idx hlt hg
    rw [List.append_nil] at hgroup
    rw [List.intercalate_singleton, hgroup, str2macFrom, if_pos hlt, List.map_singleton,
      patch_cons (by omega), patch_nil]
  | cons g' gs ih =>
    rw [List.length_cons] at hidx
    have hg := h g List.mem_cons_self
    have hrest := fun u hu => h u (List.mem_cons_of_mem g hu)
    rw [List.intercalate_cons_cons, List.append_assoc, List.singleton_append,
      str2macFrom_group (by omega) hg, str2macFrom_colon (by omega),
      ih (by rw [List.length_set]; exact hmac) (by omega) hrest,
      @List.map_cons _ _ (groupByte 0) g, patch_cons (show idx < mac.length by omega)]

/-- The return value is one of two. -/
theorem str2macFrom_eq_or (mac : List UInt8) (idx : ℕ) (val : UInt8) (p : List Char) :
    (str2macFrom mac idx val p).1 = 0 ∨ (str2macFrom mac idx val p).1 = -1 := by
  fun_induction str2macFrom mac idx val p with
  | case1 mac idx val hidx => exact Or.inl rfl
  | case2 mac idx val hidx => exact Or.inr rfl
  | case3 mac idx val c p hidx hc d hd ih => exact ih
  | case4 mac idx val c p hidx hc hd => exact Or.inr rfl
  | case5 mac idx val c p hidx hc ih => exact ih
  | case6 mac idx val c p hidx => exact Or.inr rfl

/-- **What the scanner accepts**: digits and colons, as long as there is a place in `mac`. -/
theorem str2macFrom_eq_zero_iff (mac : List UInt8) (idx : ℕ) (val : UInt8) (p : List Char) :
    (str2macFrom mac idx val p).1 = 0 ↔
      idx + p.count ':' < 6 ∧ ∀ c ∈ p, c ≠ ':' → c ∈ hexDigits := by
  fun_induction str2macFrom mac idx val p with
  | case1 mac idx val hidx => simpa using hidx
  | case2 mac idx val hidx => simpa using hidx
  | case3 mac idx val c p hidx hc d hd ih =>
    have hmem := mem_of_hexDigit? hd
    rw [ih, List.count_cons_of_ne hc, List.forall_mem_cons]
    simp only [hmem, implies_true, true_and]
  | case4 mac idx val c p hidx hc hd =>
    have hmem := hexDigit?_eq_none_iff.mp hd
    rw [List.forall_mem_cons]
    simp only [hc, hmem, ne_eq, not_false_eq_true, forall_const, false_and, and_false]
    decide
  | case5 mac idx val c p hidx hc ih =>
    obtain rfl := not_not.mp hc
    rw [ih, List.count_cons_self, List.forall_mem_cons]
    simp only [ne_eq, not_true_eq_false, false_implies, true_and]
    refine and_congr_left fun _ => ?_
    omega
  | case6 mac idx val c p hidx =>
    refine ⟨fun h => absurd (show (-1 : ℤ) = 0 from h) (by decide), ?_⟩
    rintro ⟨hlt, -⟩
    omega

theorem str2mac_eq_zero_iff : (str2mac mac macstr).1 = 0 ↔
    macstr.count ':' ≤ 5 ∧ ∀ c ∈ macstr, c ≠ ':' → c ∈ hexDigits := by
  rw [str2mac, str2macFrom_eq_zero_iff, Nat.zero_add, Nat.lt_succ_iff]

/-! ### Which strings are addresses -/

theorem IsMac.splitOn_eq (h : IsMac gs macstr) : macstr.splitOn ':' = gs := by
  have hne : gs ≠ [] := by
    rintro rfl
    exact absurd h.six (by decide)
  rw [h.joined]
  exact List.splitOn_intercalate ':' (fun g hg hmem => colon_notMem (h.digits g hg _ hmem)) hne

/-- **An address** has five colons and one or two digits at each side of them. -/
theorem exists_isMac_iff : (∃ gs, IsMac gs macstr) ↔
    (∀ c ∈ macstr, c ≠ ':' → c ∈ hexDigits) ∧ macstr.count ':' = 5 ∧
      ∀ g ∈ macstr.splitOn ':', g.length = 1 ∨ g.length = 2 := by
  have hlength := length_splitOn ':' macstr
  constructor
  · rintro ⟨gs, h⟩
    have hsplit := h.splitOn_eq
    refine ⟨fun c hc hne => ?_, ?_, ?_⟩
    · obtain ⟨g, hg, hmem⟩ := mem_splitOn.mpr ⟨hc, hne⟩
      rw [hsplit] at hg
      exact h.digits g hg c hmem
    · rw [hsplit, h.six] at hlength
      omega
    · rw [hsplit]
      exact h.size
  · rintro ⟨hdigits, hcount, hsize⟩
    refine ⟨macstr.splitOn ':', ?_, hsize, fun g hg c hc => ?_, (List.intercalate_splitOn ':').symm⟩
    · rw [hlength, hcount]
    · obtain ⟨hmem, hne⟩ := mem_splitOn.mp ⟨g, hg, hc⟩
      exact hdigits c hmem hne

/-- **An address is accepted and written.** -/
theorem IsMac.str2mac_eq (h : IsMac gs macstr) (hmac : 6 ≤ mac.length) :
    str2mac mac macstr = (0, patch mac 0 (gs.map (groupByte 0))) := by
  obtain ⟨g, gs, rfl⟩ : ∃ g gs', gs = g :: gs' :=
    List.exists_cons_of_length_pos (by rw [h.six]; decide)
  have hsix := h.six
  rw [List.length_cons] at hsix
  rw [h.joined]
  exact str2macFrom_groups hmac (by omega) h.digits

theorem IsMac.writes (h : IsMac gs macstr) (hmac : 6 ≤ mac.length) :
    ((str2mac mac macstr).2.take 6).map UInt8.toNat = gs.map groupValue := by
  have hlength : (gs.map (groupByte 0)).length = 6 := by rw [List.length_map, h.six]
  rw [h.str2mac_eq hmac]
  change ((patch mac 0 (gs.map (groupByte 0))).take 6).map UInt8.toNat = _
  rw [patch, List.take_zero, List.nil_append, List.take_left' hlength, List.map_map]
  refine List.map_congr_left fun g hg => ?_
  exact groupByte_toNat (h.size g hg) (h.digits g hg)

/-- **`str2mac` accepts addresses exactly** but on digits with too few colons and on groups that
are empty or too long. -/
theorem acceptsMac_iff (hmac : 6 ≤ mac.length) : AcceptsMac mac macstr ↔
    (∃ c ∈ macstr, c ≠ ':' ∧ c ∉ hexDigits) ∨ 5 < macstr.count ':' ∨
      macstr.count ':' = 5 ∧ ∀ g ∈ macstr.splitOn ':', g.length = 1 ∨ g.length = 2 := by
  have hzero := @str2mac_eq_zero_iff mac macstr
  constructor
  · intro h
    by_cases hdigits : ∀ c ∈ macstr, c ≠ ':' → c ∈ hexDigits
    · by_cases hcount : macstr.count ':' ≤ 5
      · exact Or.inr (Or.inr (exists_isMac_iff.mp (h.accepts.mp (hzero.mpr ⟨hcount, hdigits⟩))).2)
      · exact Or.inr (Or.inl (by omega))
    · push Not at hdigits
      exact Or.inl hdigits
  · intro h
    have hmac_of_zero : (str2mac mac macstr).1 = 0 → ∃ gs, IsMac gs macstr := by
      intro hret
      obtain ⟨hcount, hdigits⟩ := hzero.mp hret
      rcases h with ⟨c, hc, hne, hmem⟩ | hmany | hgroups
      · exact absurd (hdigits c hc hne) hmem
      · omega
      · exact exists_isMac_iff.mpr ⟨hdigits, hgroups⟩
    refine ⟨⟨hmac_of_zero, ?_⟩, fun gs hgs => hgs.writes hmac, fun hnone => ?_⟩
    · rintro ⟨gs, hgs⟩
      rw [hgs.str2mac_eq hmac]
    · rcases str2macFrom_eq_or mac 0 0 macstr with hret | hret
      · exact absurd (hmac_of_zero hret) hnone
      · exact hret

/-- The address of this host. -/
theorem acceptsMac_iff_sample : AcceptsMac [0, 0, 0, 0, 0, 0] selfMac :=
  (acceptsMac_iff (by decide)).mpr (Or.inr (Or.inr (by decide)))

/-- Three groups are accepted. -/
theorem not_acceptsMac_sample : ¬AcceptsMac [0, 0, 0, 0, 0, 0] "00:0c:29".toList := by
  intro h
  obtain ⟨gs, hgs⟩ := h.accepts.mp rfl
  exact absurd (exists_isMac_iff.mp ⟨gs, hgs⟩).2.1 (by decide)

end

end Stack

end BackendStudy
