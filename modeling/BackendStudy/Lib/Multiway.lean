import Mathlib.Data.List.Induction
import Mathlib.Data.List.Pairwise
import Mathlib.Order.Lattice
import Mathlib.Tactic.Common

/-!
# Subtrees and separators

A node of a multiway search tree has `n` separating keys and `n + 1` subtrees, and the
sequence of keys below it is the sequences of its subtrees with the separators between
them. This is said here once, for subtrees of any kind: a relation `R` tells which
sequence a subtree has, and `BackendStudy.Multiway.Weave R ds ks l` that the subtrees `ds`
with the separators `ks` have the sequence `l`.

An operation works at one subtree, so the sequence is cut there: what stands before the
subtree, its own sequence, and what stands after it (`BackendStudy.Multiway.weave_focus`), or
at a separator (`BackendStudy.Multiway.weave_append`). In a sorted sequence the separators
bound these parts (`BackendStudy.Multiway.Front.lt_of_sorted`,
`BackendStudy.Multiway.Back.gt_of_sorted`).
-/

namespace BackendStudy

namespace Multiway

variable {γ κ : Type*} {R R' : γ → List κ → Prop}

/-- The sequence of subtrees each followed by a separator. -/
inductive Front (R : γ → List κ → Prop) : List γ → List κ → List κ → Prop
  /-- Nothing. -/
  | nil : Front R [] [] []
  /-- A subtree and its separator. -/
  | cons {c : γ} {k : κ} {x : List κ} {ds : List γ} {ks l : List κ} : R c x → Front R ds ks l →
      Front R (c :: ds) (k :: ks) (x ++ k :: l)

/-- The sequence of subtrees each preceded by a separator. -/
inductive Back (R : γ → List κ → Prop) : List κ → List γ → List κ → Prop
  /-- Nothing. -/
  | nil : Back R [] [] []
  /-- A separator and its subtree. -/
  | cons {c : γ} {k : κ} {x : List κ} {ds : List γ} {ks l : List κ} : R c x → Back R ks ds l →
      Back R (k :: ks) (c :: ds) (k :: (x ++ l))

/-- **The sequence of a node**: its subtrees `ds` with the separators `ks` between them. -/
def Weave (R : γ → List κ → Prop) (ds : List γ) (ks l : List κ) : Prop :=
  ∃ c ds' x l', ds = c :: ds' ∧ R c x ∧ Back R ks ds' l' ∧ l = x ++ l'

section Basic

variable {c d : γ} {ds ds' D₁ D₂ : List γ} {k m : κ} {ks ks' K₁ K₂ x l l' P S : List κ}

theorem Back.length_eq (h : Back R ks ds l) : ks.length = ds.length := by
  induction h with
  | nil => rfl
  | cons _ _ ih => simp [ih]

theorem Front.length_eq (h : Front R ds ks l) : ds.length = ks.length := by
  induction h with
  | nil => rfl
  | cons _ _ ih => simp [ih]

theorem Weave.length_eq (h : Weave R ds ks l) : ds.length = ks.length + 1 := by
  obtain ⟨c, ds', x, l', rfl, -, hb, -⟩ := h
  simp [hb.length_eq]

theorem back_nil : Back R [] ds l ↔ ds = [] ∧ l = [] := by
  constructor
  · intro h
    cases h
    exact ⟨rfl, rfl⟩
  · rintro ⟨rfl, rfl⟩
    exact .nil

theorem front_nil : Front R ds [] l ↔ ds = [] ∧ l = [] := by
  constructor
  · intro h
    cases h
    exact ⟨rfl, rfl⟩
  · rintro ⟨rfl, rfl⟩
    exact .nil

theorem back_cons : Back R (k :: ks) (c :: ds) l ↔
    ∃ x l', R c x ∧ Back R ks ds l' ∧ l = k :: (x ++ l') := by
  constructor
  · intro h
    cases h with
    | cons hx hb => exact ⟨_, _, hx, hb, rfl⟩
  · rintro ⟨x, l', hx, hb, rfl⟩
    exact hb.cons hx

/-- A node with one subtree. -/
theorem weave_single : Weave R [c] [] l ↔ R c l := by
  constructor
  · rintro ⟨c', ds', x, l', he, hx, hb, rfl⟩
    obtain ⟨rfl, rfl⟩ := List.cons.inj he
    obtain ⟨-, rfl⟩ := back_nil.mp hb
    simpa using hx
  · intro h
    exact ⟨c, [], l, [], rfl, h, .nil, by simp⟩

/-- The first subtree and its separator. -/
theorem weave_cons : Weave R (c :: ds) (k :: ks) l ↔
    ∃ x l', R c x ∧ Weave R ds ks l' ∧ l = x ++ k :: l' := by
  constructor
  · rintro ⟨c', ds', x, l', he, hx, hb, rfl⟩
    obtain ⟨rfl, rfl⟩ := List.cons.inj he
    cases hb with
    | cons hy hb => exact ⟨x, _, hx, ⟨_, _, _, _, rfl, hy, hb, rfl⟩, by simp⟩
  · rintro ⟨x, l', hx, ⟨c', ds', y, l'', rfl, hy, hb, rfl⟩, rfl⟩
    exact ⟨c, c' :: ds', x, _, rfl, hx, hb.cons hy, rfl⟩

theorem Back.mono (h : Back R ks ds l) (hR : ∀ c ∈ ds, ∀ x, R c x → R' c x) :
    Back R' ks ds l := by
  induction h with
  | nil => exact .nil
  | cons hx _ ih =>
    exact .cons (hR _ (by simp) _ hx) (ih fun c hc => hR c (by simp [hc]))

theorem Front.mono (h : Front R ds ks l) (hR : ∀ c ∈ ds, ∀ x, R c x → R' c x) :
    Front R' ds ks l := by
  induction h with
  | nil => exact .nil
  | cons hx _ ih =>
    exact .cons (hR _ (by simp) _ hx) (ih fun c hc => hR c (by simp [hc]))

/-- One more subtree and separator at the end. -/
theorem Front.snoc (h : Front R ds ks l) (hx : R c x) :
    Front R (ds ++ [c]) (ks ++ [k]) (l ++ (x ++ [k])) := by
  induction h with
  | nil => exact Front.nil.cons hx
  | cons hy _ ih => simpa using ih.cons hy

theorem front_snoc : Front R (ds ++ [c]) (ks ++ [k]) l ↔
    ∃ P x, Front R ds ks P ∧ R c x ∧ l = P ++ (x ++ [k]) := by
  constructor
  · intro h
    induction ds generalizing ks l with
    | nil =>
      obtain rfl : ks = [] := List.length_eq_zero_iff.mp (by simpa using h.length_eq.symm)
      cases h with
      | cons hx hf =>
        obtain ⟨-, rfl⟩ := front_nil.mp hf
        exact ⟨[], _, .nil, hx, rfl⟩
    | cons d ds ih =>
      obtain ⟨m, ks, rfl⟩ : ∃ m K, ks = m :: K := by
        refine List.exists_cons_of_length_eq_add_one (n := ds.length) ?_
        simpa using h.length_eq.symm
      cases h with
      | cons hy hf =>
        obtain ⟨P, x, hP, hx, rfl⟩ := ih hf
        exact ⟨_, x, hP.cons hy, hx, by simp⟩
  · rintro ⟨P, x, hP, hx, rfl⟩
    exact hP.snoc hx

/-- **A node cut at one of its subtrees.** -/
theorem weave_focus (hlen : D₁.length = K₁.length) : Weave R (D₁ ++ c :: D₂) (K₁ ++ K₂) l ↔
    ∃ P x S, Front R D₁ K₁ P ∧ R c x ∧ Back R K₂ D₂ S ∧ l = P ++ (x ++ S) := by
  induction D₁ generalizing K₁ l with
  | nil =>
    obtain rfl : K₁ = [] := List.length_eq_zero_iff.mp hlen.symm
    constructor
    · rintro ⟨c', ds', x, l', he, hx, hb, rfl⟩
      obtain ⟨rfl, rfl⟩ := List.cons.inj he
      exact ⟨[], x, l', .nil, hx, hb, rfl⟩
    · rintro ⟨P, x, S, hP, hx, hb, rfl⟩
      obtain ⟨-, rfl⟩ := front_nil.mp hP
      exact ⟨c, D₂, x, S, rfl, hx, hb, rfl⟩
  | cons d D₁ ih =>
    obtain ⟨k, K₁, rfl⟩ : ∃ k K, K₁ = k :: K := List.exists_cons_of_length_eq_add_one hlen.symm
    have hlen' : D₁.length = K₁.length := by simpa using hlen
    rw [List.cons_append, List.cons_append, weave_cons]
    constructor
    · rintro ⟨y, l', hy, hw, rfl⟩
      obtain ⟨P, x, S, hP, hx, hb, rfl⟩ := (ih hlen').mp hw
      exact ⟨_, x, S, hP.cons hy, hx, hb, by simp⟩
    · rintro ⟨P, x, S, hP, hx, hb, rfl⟩
      cases hP with
      | cons hy hP => exact ⟨_, _, hy, (ih hlen').mpr ⟨_, x, S, hP, hx, hb, rfl⟩, by simp⟩

/-- **A node cut at one of its separators.** -/
theorem weave_append (hlen : D₁.length = K₁.length + 1) :
    Weave R (D₁ ++ D₂) (K₁ ++ m :: K₂) l ↔
      ∃ x y, Weave R D₁ K₁ x ∧ Weave R D₂ K₂ y ∧ l = x ++ m :: y := by
  induction K₁ generalizing D₁ l with
  | nil =>
    obtain ⟨d, rfl⟩ : ∃ d, D₁ = [d] := List.length_eq_one_iff.mp hlen
    rw [List.singleton_append, List.nil_append, weave_cons]
    simp only [weave_single]
  | cons k K₁ ih =>
    obtain ⟨d, D₁, rfl⟩ : ∃ d D, D₁ = d :: D := List.exists_cons_of_length_eq_add_one hlen
    have hlen' : D₁.length = K₁.length + 1 := by simpa using hlen
    rw [List.cons_append, List.cons_append, weave_cons]
    constructor
    · rintro ⟨x, l', hx, hw, rfl⟩
      obtain ⟨y, z, hy, hz, rfl⟩ := (ih hlen').mp hw
      exact ⟨x ++ k :: y, z, weave_cons.mpr ⟨x, y, hx, hy, rfl⟩, hz, by simp⟩
    · rintro ⟨x, z, hx, hz, rfl⟩
      obtain ⟨w, y, hw, hy, rfl⟩ := weave_cons.mp hx
      exact ⟨w, _, hw, (ih hlen').mpr ⟨y, z, hy, hz, rfl⟩, by simp⟩

/-- The sequence is determined when the sequences of the subtrees are. -/
theorem Back.unique (h : Back R ks ds l) (h' : Back R' ks ds l')
    (hR : ∀ c ∈ ds, ∀ x y, R c x → R' c y → x = y) : l = l' := by
  induction h generalizing l' with
  | nil =>
    cases h'
    rfl
  | cons hx _ ih =>
    cases h' with
    | cons hy hb =>
      rw [hR _ (by simp) _ _ hx hy, ih hb fun c hc => hR c (by simp [hc])]

theorem Weave.unique (h : Weave R ds ks l) (h' : Weave R' ds ks l')
    (hR : ∀ c ∈ ds, ∀ x y, R c x → R' c y → x = y) : l = l' := by
  obtain ⟨c, ds, x, S, rfl, hx, hb, rfl⟩ := h
  obtain ⟨c', ds', x', S', he, hx', hb', rfl⟩ := h'
  obtain ⟨rfl, rfl⟩ := List.cons.inj he
  rw [hR c (by simp) x x' hx hx', hb.unique hb' fun d hd => hR d (by simp [hd])]

/-! ### Separators in the sequence -/

theorem Back.mem (h : Back R ks ds l) (hk : k ∈ ks) : k ∈ l := by
  induction h with
  | nil => exact absurd hk (by simp)
  | cons _ _ ih =>
    rcases List.mem_cons.mp hk with rfl | hk
    · simp
    · simp [ih hk]

theorem Front.mem (h : Front R ds ks l) (hk : k ∈ ks) : k ∈ l := by
  induction h with
  | nil => exact absurd hk (by simp)
  | cons _ _ ih =>
    rcases List.mem_cons.mp hk with rfl | hk
    · simp
    · simp [ih hk]

theorem Weave.mem (h : Weave R ds ks l) (hk : k ∈ ks) : k ∈ l := by
  obtain ⟨c, ds', x, l', rfl, -, hb, rfl⟩ := h
  exact List.mem_append_right _ (hb.mem hk)

theorem Back.sublist (h : Back R ks ds l) : ks.Sublist l := by
  induction h with
  | nil => exact List.Sublist.slnil
  | cons _ _ ih => exact (ih.trans (List.sublist_append_right _ _)).cons_cons _

/-- The separators are a subsequence of the sequence. -/
theorem Weave.sublist (h : Weave R ds ks l) : ks.Sublist l := by
  obtain ⟨c, ds', x, l', rfl, -, hb, rfl⟩ := h
  exact hb.sublist.trans (List.sublist_append_right _ _)

/-! ### Subtrees in the sequence -/

theorem Front.mem_subtree (h : Front R ds ks l) (hc : c ∈ ds) : ∃ x, R c x ∧ ∀ a ∈ x, a ∈ l := by
  induction h with
  | nil => exact absurd hc (by simp)
  | cons hx _ ih =>
    rcases List.mem_cons.mp hc with rfl | hc
    · exact ⟨_, hx, fun a ha => by simp [ha]⟩
    · obtain ⟨y, hy, hsub⟩ := ih hc
      exact ⟨y, hy, fun a ha => by simp [hsub a ha]⟩

theorem Back.mem_subtree (h : Back R ks ds l) (hc : c ∈ ds) : ∃ x, R c x ∧ ∀ a ∈ x, a ∈ l := by
  induction h with
  | nil => exact absurd hc (by simp)
  | cons hx _ ih =>
    rcases List.mem_cons.mp hc with rfl | hc
    · exact ⟨_, hx, fun a ha => by simp [ha]⟩
    · obtain ⟨y, hy, hsub⟩ := ih hc
      exact ⟨y, hy, fun a ha => by simp [hsub a ha]⟩

theorem Weave.mem_subtree (h : Weave R ds ks l) (hc : c ∈ ds) : ∃ x, R c x ∧ ∀ a ∈ x, a ∈ l := by
  obtain ⟨d, ds', x, l', rfl, hx, hb, rfl⟩ := h
  rcases List.mem_cons.mp hc with rfl | hc
  · exact ⟨x, hx, fun a ha => by simp [ha]⟩
  · obtain ⟨y, hy, hsub⟩ := hb.mem_subtree hc
    exact ⟨y, hy, fun a ha => by simp [hsub a ha]⟩

theorem Back.mem_cases {a : κ} (h : Back R ks ds l) (ha : a ∈ l) :
    a ∈ ks ∨ ∃ c ∈ ds, ∃ x, R c x ∧ a ∈ x := by
  induction h with
  | nil => simp at ha
  | @cons c k x ds ks l hx _ ih =>
    rcases List.mem_cons.mp ha with rfl | ha
    · exact Or.inl List.mem_cons_self
    · rcases List.mem_append.mp ha with ha | ha
      · exact Or.inr ⟨c, List.mem_cons_self, x, hx, ha⟩
      · rcases ih ha with hk | ⟨d, hd, y, hy, hay⟩
        · exact Or.inl (List.mem_cons_of_mem _ hk)
        · exact Or.inr ⟨d, List.mem_cons_of_mem _ hd, y, hy, hay⟩

/-- A member of the sequence is a separator or in a subtree. -/
theorem Weave.mem_cases {a : κ} (h : Weave R ds ks l) (ha : a ∈ l) :
    a ∈ ks ∨ ∃ c ∈ ds, ∃ x, R c x ∧ a ∈ x := by
  obtain ⟨d, ds', x, l', rfl, hx, hb, rfl⟩ := h
  rcases List.mem_append.mp ha with ha | ha
  · exact Or.inr ⟨d, List.mem_cons_self, x, hx, ha⟩
  · rcases hb.mem_cases ha with hk | ⟨c, hc, y, hy, hay⟩
    · exact Or.inl hk
    · exact Or.inr ⟨c, List.mem_cons_of_mem _ hc, y, hy, hay⟩

/-- What stands before a subtree ends with a separator. -/
theorem Front.eq_nil_or (h : Front R ds ks l) : l = [] ∨ ∃ l' k, k ∈ ks ∧ l = l' ++ [k] := by
  induction h with
  | nil => exact Or.inl rfl
  | @cons c k x ds ks l hx _ ih =>
    right
    rcases ih with rfl | ⟨l', k', hk', rfl⟩
    · exact ⟨x, k, by simp, rfl⟩
    · exact ⟨x ++ k :: l', k', by simp [hk'], by simp⟩

/-- What stands after a subtree starts with a separator. -/
theorem Back.eq_nil_or (h : Back R ks ds l) : l = [] ∨ ∃ l' k, k ∈ ks ∧ l = k :: l' := by
  cases h with
  | nil => exact Or.inl rfl
  | cons _ _ => exact Or.inr ⟨_, _, by simp, rfl⟩

end Basic

/-! ### Sorted sequences -/

section Sorted

variable [Preorder κ] {ds : List γ} {ks l P x S : List κ} {k : κ}

/-- What stands before a subtree is below every bound of its separators. -/
theorem Front.lt_of_sorted (h : Front R ds ks l) (hs : l.Pairwise (· < ·))
    (hk : ∀ a ∈ ks, a < k) : ∀ a ∈ l, a < k := by
  rcases h.eq_nil_or with rfl | ⟨l', k', hk', rfl⟩
  · simp
  · intro a ha
    rcases List.mem_append.mp ha with ha | ha
    · exact ((List.pairwise_append.mp hs).2.2 a ha k' (by simp)).trans (hk k' hk')
    · obtain rfl : a = k' := by simpa using ha
      exact hk a hk'

/-- What stands after a subtree is above every bound of its separators. -/
theorem Back.gt_of_sorted (h : Back R ks ds l) (hs : l.Pairwise (· < ·))
    (hk : ∀ a ∈ ks, k < a) : ∀ a ∈ l, k < a := by
  rcases h.eq_nil_or with rfl | ⟨l', k', hk', rfl⟩
  · simp
  · intro a ha
    rcases List.mem_cons.mp ha with rfl | ha
    · exact hk a hk'
    · exact (hk k' hk').trans ((List.pairwise_cons.mp hs).1 a ha)

end Sorted

/-- A sorted sequence is cut by a key that is not in it. -/
theorem exists_cut {κ : Type*} [LinearOrder κ] {l : List κ} (hs : l.Pairwise (· < ·)) {k : κ}
    (hk : k ∉ l) : ∃ A B, l = A ++ B ∧ (∀ a ∈ A, a < k) ∧ ∀ b ∈ B, k < b := by
  induction l with
  | nil => exact ⟨[], [], rfl, by simp, by simp⟩
  | cons a l ih =>
    rw [List.pairwise_cons] at hs
    rw [List.mem_cons, not_or] at hk
    rcases lt_or_gt_of_ne hk.1 with hlt | hgt
    · refine ⟨[], a :: l, rfl, by simp, fun b hb => ?_⟩
      rcases List.mem_cons.mp hb with rfl | hb
      · exact hlt
      · exact hlt.trans (hs.1 b hb)
    · obtain ⟨A, B, rfl, hA, hB⟩ := ih hs.2 hk.2
      refine ⟨a :: A, B, rfl, fun b hb => ?_, hB⟩
      rcases List.mem_cons.mp hb with rfl | hb
      · exact hgt
      · exact hA b hb

end Multiway

end BackendStudy
