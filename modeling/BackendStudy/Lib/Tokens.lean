import Mathlib.Data.List.Basic
import Mathlib.Data.List.TakeWhile

/-!
# Splitting into tokens

`strtok` passes delimiters, takes what stands in front of the next one and goes on behind it
(`BackendStudy.Tokens.strtok`); what it returns call after call are the tokens
(`BackendStudy.Tokens.tokens`). They are the non-empty pieces between delimiters, so delimiters at
the ends and next to each other leave no trace: joined again, with one delimiter between any two,
the tokens are what they have been taken from with some delimiters left out
(`BackendStudy.Tokens.tokens_sublist`). Non-empty pieces that have been joined so are the tokens
of what they make (`BackendStudy.Tokens.tokens_intercalate`).
-/

namespace BackendStudy

namespace Tokens

variable {α : Type*} [DecidableEq α]

/-- `strtok`: the next token, and what is left for the calls after it. -/
def strtok (d : α) (s : List α) : Option (List α × List α) :=
  if s.dropWhile (· = d) = [] then none
  else some ((s.dropWhile (· = d)).takeWhile (· ≠ d),
    ((s.dropWhile (· = d)).dropWhile (· ≠ d)).drop 1)

variable {d : α} {s t rest : List α} {ts : List (List α)}

/-- **A token**, the delimiters in front of it and what follows it. -/
theorem strtok_cases (h : strtok d s = some (t, rest)) : ∃ g, t ≠ [] ∧ d ∉ t ∧
    (s = g ++ t ∧ rest = [] ∨ s = g ++ (t ++ d :: rest)) := by
  unfold strtok at h
  split_ifs at h with hnil
  obtain ⟨ht, hrest⟩ := Prod.mk.inj (Option.some.inj h)
  have hsplit : s = s.takeWhile (· = d) ++ s.dropWhile (· = d) :=
    List.takeWhile_append_dropWhile.symm
  obtain ⟨u, hu⟩ : ∃ u, s.dropWhile (· = d) = u := ⟨_, rfl⟩
  rw [hu] at hnil ht hrest hsplit
  have hparts : u.takeWhile (· ≠ d) ++ u.dropWhile (· ≠ d) = u := List.takeWhile_append_dropWhile
  rw [ht] at hparts
  refine ⟨s.takeWhile (· = d), ?_, fun hmem => ?_, ?_⟩
  · -- the first element behind the delimiters is none
    rintro rfl
    have hhead := List.head_dropWhile_not (p := (· = d)) (l := s) (hu ▸ hnil)
    obtain ⟨a, u, rfl⟩ := List.exists_cons_of_ne_nil hnil
    simp only [hu, List.head_cons, decide_eq_false_iff_not] at hhead
    rw [List.takeWhile_cons_of_pos (by simpa using hhead)] at ht
    exact absurd ht (by simp)
  · rw [← ht] at hmem
    simpa using List.mem_takeWhile_imp hmem
  · rcases hv : u.dropWhile (· ≠ d) with _ | ⟨a, v⟩
    · rw [hv, List.append_nil] at hparts
      rw [hv] at hrest
      exact Or.inl ⟨hparts ▸ hsplit, hrest.symm⟩
    · have hhead := List.head_dropWhile_not (p := (· ≠ d)) (l := u) (hv ▸ List.cons_ne_nil _ _)
      simp only [hv, List.head_cons, decide_eq_false_iff_not, not_not] at hhead
      rw [hv] at hparts hrest
      obtain rfl : v = rest := hrest
      rw [hhead] at hparts
      exact Or.inr (hparts ▸ hsplit)

theorem strtok_lt (h : strtok d s = some (t, rest)) : rest.length < s.length := by
  obtain ⟨g, hne, -, ⟨rfl, rfl⟩ | rfl⟩ := strtok_cases h
  · have := List.length_pos_iff.mpr hne
    simp
    omega
  · simp
    omega

/-- Without delimiters in front, the token is what stands in front of the first one. -/
theorem strtok_append (hne : t ≠ []) (ht : d ∉ t) : strtok d (t ++ d :: rest) = some (t, rest) := by
  obtain ⟨a, t, rfl⟩ := List.exists_cons_of_ne_nil hne
  have ha : ¬a = d := fun h => ht (h ▸ List.mem_cons_self)
  have hall : ∀ b ∈ a :: t, b ≠ d := fun b hb h => ht (h ▸ hb)
  have hdrop : (a :: t ++ d :: rest).dropWhile (· = d) = a :: t ++ d :: rest :=
    List.dropWhile_cons_of_neg (by simpa using ha)
  rw [strtok, hdrop, if_neg (by simp), List.takeWhile_append_of_pos (by simpa using hall),
    List.dropWhile_append_of_pos (by simpa using hall)]
  simp

theorem strtok_last (hne : t ≠ []) (ht : d ∉ t) : strtok d t = some (t, []) := by
  obtain ⟨a, t, rfl⟩ := List.exists_cons_of_ne_nil hne
  have ha : ¬a = d := fun h => ht (h ▸ List.mem_cons_self)
  have hall : ∀ b ∈ a :: t, b ≠ d := fun b hb h => ht (h ▸ hb)
  have hdrop : (a :: t).dropWhile (· = d) = a :: t :=
    List.dropWhile_cons_of_neg (by simpa using ha)
  rw [strtok, hdrop, if_neg (by simp), List.takeWhile_eq_self_iff.mpr (by simpa using hall),
    List.dropWhile_eq_nil_iff.mpr (by simpa using hall)]
  rfl

theorem strtok_nil : strtok d [] = none := rfl

/-- **The tokens**, call after call. -/
def tokens (d : α) (s : List α) : List (List α) :=
  match h : strtok d s with
  | none => []
  | some (t, rest) =>
    have : rest.length < s.length := strtok_lt h
    t :: tokens d rest
termination_by s.length

theorem tokens_of_none (h : strtok d s = none) : tokens d s = [] := by
  rw [tokens]
  split
  · rfl
  · rename_i h'
    exact absurd (h.symm.trans h') (by simp)

theorem tokens_of_some (h : strtok d s = some (t, rest)) : tokens d s = t :: tokens d rest := by
  rw [tokens]
  split
  · rename_i h'
    exact absurd (h.symm.trans h') (by simp)
  · rename_i h'
    obtain ⟨rfl, rfl⟩ := Prod.mk.inj (Option.some.inj (h.symm.trans h'))
    rfl

/-- **An induction over the calls.** -/
theorem tokens_induction {P : List α → Prop} (hnone : ∀ s, strtok d s = none → P s)
    (hsome : ∀ s t rest, strtok d s = some (t, rest) → P rest → P s) (s : List α) : P s := by
  induction hlen : s.length using Nat.strong_induction_on generalizing s with
  | _ n ih =>
    rcases h : strtok d s with _ | ⟨t, rest⟩
    · exact hnone s h
    · exact hsome s t rest h (ih _ (hlen ▸ strtok_lt h) rest rfl)

/-- A token is not empty and has no delimiter. -/
theorem mem_tokens (h : t ∈ tokens d s) : t ≠ [] ∧ d ∉ t := by
  induction s using tokens_induction (d := d) with
  | hnone s hs =>
    rw [tokens_of_none hs] at h
    exact absurd h List.not_mem_nil
  | hsome s u rest hs ih =>
    obtain ⟨g, hne, hd, -⟩ := strtok_cases hs
    rw [tokens_of_some hs] at h
    rcases List.mem_cons.mp h with rfl | h
    · exact ⟨hne, hd⟩
    · exact ih h

/-- **The tokens joined again** are what they have been taken from, with some delimiters left
out. -/
theorem tokens_sublist (d : α) (s : List α) :
    (List.intercalate [d] (tokens d s)).Sublist s := by
  induction s using tokens_induction (d := d) with
  | hnone s hs =>
    rw [tokens_of_none hs]
    exact List.nil_sublist s
  | hsome s t rest hs ih =>
    obtain ⟨g, -, -, ⟨rfl, rfl⟩ | rfl⟩ := strtok_cases hs
    · rw [tokens_of_some hs, tokens_of_none strtok_nil, List.intercalate_singleton]
      exact List.sublist_append_right g t
    · rw [tokens_of_some hs]
      by_cases hnil : tokens d rest = []
      · rw [hnil, List.intercalate_singleton]
        exact (List.sublist_append_left t _).trans (List.sublist_append_right g _)
      · rw [List.intercalate_cons_of_ne_nil hnil, List.append_assoc]
        exact ((ih.cons_cons d).append_left t).trans (List.sublist_append_right g _)

/-- **Pieces that have been joined are the tokens.** -/
theorem tokens_intercalate (h : ∀ t ∈ ts, t ≠ [] ∧ d ∉ t) :
    tokens d (List.intercalate [d] ts) = ts := by
  induction ts with
  | nil => exact tokens_of_none rfl
  | cons t ts ih =>
    obtain ⟨hne, hd⟩ := h t List.mem_cons_self
    by_cases hnil : ts = []
    · subst hnil
      rw [List.intercalate_singleton, tokens_of_some (strtok_last hne hd),
        tokens_of_none strtok_nil]
    · have hrest := ih fun u hu => h u (List.mem_cons_of_mem _ hu)
      rw [List.intercalate_cons_of_ne_nil hnil, List.append_assoc, List.singleton_append,
        tokens_of_some (strtok_append hne hd), hrest]

/-! ### Pieces -/

/-- Between delimiters there is one piece more than there are delimiters. -/
theorem length_splitOn (d : α) (s : List α) : (s.splitOn d).length = s.count d + 1 := by
  induction s with
  | nil => rfl
  | cons a s ih =>
    rw [List.splitOn_cons_eq_if_modifyHead]
    by_cases ha : a = d
    · subst ha
      rw [if_pos (beq_self_eq_true a), List.length_cons, ih, List.count_cons_self]
    · rw [if_neg (by simpa using ha), List.length_modifyHead, ih, List.count_cons_of_ne ha]

/-- The pieces have all but the delimiters. -/
theorem mem_splitOn {c : α} : (∃ g ∈ s.splitOn d, c ∈ g) ↔ c ∈ s ∧ c ≠ d := by
  induction s with
  | nil => simp
  | cons a s ih =>
    rw [List.splitOn_cons_eq_if_modifyHead]
    by_cases ha : a = d
    · subst ha
      rw [if_pos (beq_self_eq_true a), List.exists_mem_cons_iff, ih, List.mem_cons]
      constructor
      · rintro (h | ⟨hmem, hne⟩)
        · exact absurd h List.not_mem_nil
        · exact ⟨Or.inr hmem, hne⟩
      · rintro ⟨rfl | hmem, hne⟩
        · exact absurd rfl hne
        · exact Or.inr ⟨hmem, hne⟩
    · obtain ⟨t, ts, hsplit⟩ := List.exists_cons_of_ne_nil (List.splitOn_ne_nil d s)
      rw [hsplit, List.exists_mem_cons_iff] at ih
      rw [if_neg (by simpa using ha), hsplit, List.modifyHead_cons, List.exists_mem_cons_iff,
        List.mem_cons, or_assoc, ih, List.mem_cons, or_and_right]
      refine or_congr_left (iff_self_and.mpr ?_)
      rintro rfl
      exact ha

end Tokens

end BackendStudy
