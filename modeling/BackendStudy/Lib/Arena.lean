import BackendStudy.Lib.Slots
import Mathlib.Data.List.Nodup
import Mathlib.Data.List.Perm.Subperm

/-!
# Linked lists in an arena

An arena is a memory of cells: a cell is allocated at a number that has not been given out
(`BackendStudy.Arena.alloc`), it is read and written through its number, and a cell that has been
freed is gone (`BackendStudy.Arena.free`). To follow a null pointer or a pointer to a cell that is
gone is an error (`BackendStudy.Arena.load`, `BackendStudy.Arena.store`).

`BackendStudy.Arena.Linked next item m p l q` says that from the pointer `p` the links of the
cells lead through the cells of `l` to the pointer `q`; `l` lists their numbers and what they hold,
their links apart. A list ends at null, and then meets no cell twice
(`BackendStudy.Arena.Linked.nodup`), so that it is no longer than the arena
(`BackendStudy.Arena.Linked.length_le`). What is done to cells that are not on it leaves a list as
it is (`BackendStudy.Arena.Linked.congr`), to set the link of its last cell moves its end
(`BackendStudy.Arena.Linked.relink`), and to change the item of a cell changes it in the list
(`BackendStudy.Arena.Linked.rewrite`).
-/

namespace BackendStudy

namespace Arena

open Slots

variable {ε α β : Type}

/-! ### Cells -/

/-- What the cell with a number holds, if it is there. -/
def cell (m : List (Option β)) (p : ℕ) : Option β := m[p]?.join

/-- What a pointer points to, an error `e` if it points to no cell. -/
def load (e : ε) (m : List (Option β)) (p : Option ℕ) : Except ε β :=
  match p.bind (cell m) with
  | some x => .ok x
  | none => .error e

/-- To write a cell, an error `e` if it is not there. -/
def store (e : ε) (m : List (Option β)) (p : ℕ) (x : β) : Except ε (List (Option β)) :=
  if (cell m p).isSome then .ok (m.set p (some x)) else .error e

/-- To free a cell, an error `e` if it is not there. -/
def free (e : ε) (m : List (Option β)) (p : ℕ) : Except ε (List (Option β)) :=
  if (cell m p).isSome then .ok (m.set p none) else .error e

/-- To allocate a cell: its number, and the arena with it. -/
def alloc (m : List (Option β)) (x : β) : ℕ × List (Option β) := (m.length, m ++ [some x])

section Cells

variable {e : ε} {m : List (Option β)} {p q : ℕ} {x y : β}

@[simp] theorem cell_nil : cell ([] : List (Option β)) p = none := rfl

theorem lt_length_of_cell (h : cell m p = some x) : p < m.length := by
  by_contra hlt
  rw [cell, List.getElem?_eq_none (by omega)] at h
  exact absurd h (by simp)

theorem cell_set {o : Option β} (hp : p < m.length) :
    cell (m.set p o) q = if p = q then o else cell m q := by
  rw [cell, List.getElem?_set]
  split_ifs <;> simp [cell]

@[simp] theorem cell_append_length : cell (m ++ [some x]) m.length = some x := by simp [cell]

theorem cell_append (h : cell m q = some y) : cell (m ++ [some x]) q = some y := by
  rw [cell, List.getElem?_append_left (lt_length_of_cell h)]
  exact h

/-- A cell of an arena to which one has been added is the new one or was there. -/
theorem cell_append_eq_some (h : cell (m ++ [some x]) q = some y) :
    q = m.length ∧ y = x ∨ cell m q = some y := by
  rcases Nat.lt_trichotomy q m.length with hlt | rfl | hlt
  · rw [cell, List.getElem?_append_left hlt] at h
    exact .inr h
  · rw [cell_append_length] at h
    exact .inl ⟨rfl, (Option.some.inj h).symm⟩
  · have hq := lt_length_of_cell h
    rw [List.length_append, List.length_singleton] at hq
    omega

theorem load_of_cell (h : cell m p = some x) : load e m (some p) = .ok x := by
  rw [load, Option.bind_some, h]

theorem store_of_cell (h : cell m p = some x) : store e m p y = .ok (m.set p (some y)) := by
  rw [store, if_pos (by rw [h]; rfl)]

theorem free_of_cell (h : cell m p = some x) : free e m p = .ok (m.set p none) := by
  rw [free, if_pos (by rw [h]; rfl)]

end Cells

/-! ### Lists of cells -/

/-- **A list of cells** from the pointer `p` to the pointer `q`: their numbers, and their items. -/
def Linked (next : β → Option ℕ) (item : β → α) (m : List (Option β)) :
    Option ℕ → List (ℕ × α) → Option ℕ → Prop
  | p, [], q => p = q
  | p, x :: l, q => p = some x.1 ∧
      ∃ c, cell m x.1 = some c ∧ item c = x.2 ∧ Linked next item m (next c) l q

section Linked

variable {next : β → Option ℕ} {item : β → α} {m m' : List (Option β)} {p q r : Option ℕ}
  {x : ℕ × α} {l l' : List (ℕ × α)} {c : β}

@[simp] theorem linked_nil : Linked next item m p [] q ↔ p = q := Iff.rfl

theorem linked_cons : Linked next item m p (x :: l) q ↔ p = some x.1 ∧
    ∃ c, cell m x.1 = some c ∧ item c = x.2 ∧ Linked next item m (next c) l q := Iff.rfl

/-- A list in two parts, and the pointer between them. -/
theorem linked_append : Linked next item m p (l ++ l') q ↔
    ∃ r, Linked next item m p l r ∧ Linked next item m r l' q := by
  induction l generalizing p with
  | nil => simp
  | cons x l ih =>
    simp only [List.cons_append, linked_cons, ih]
    constructor
    · rintro ⟨hp, c, hc, hx, r, hl, hl'⟩
      exact ⟨r, ⟨hp, c, hc, hx, hl⟩, hl'⟩
    · rintro ⟨r, ⟨hp, c, hc, hx, hl⟩, hl'⟩
      exact ⟨hp, c, hc, hx, r, hl, hl'⟩

/-- The cells of a list are there. -/
theorem Linked.exists_cell (h : Linked next item m p l q) (hx : x ∈ l) :
    ∃ c, cell m x.1 = some c ∧ item c = x.2 := by
  induction l generalizing p with
  | nil => exact absurd hx List.not_mem_nil
  | cons y l ih =>
    obtain ⟨-, c, hc, hy, hl⟩ := h
    rcases List.mem_cons.mp hx with rfl | hx
    · exact ⟨c, hc, hy⟩
    · exact ih hl hx

/-- **A list reads its own cells only.** -/
theorem Linked.congr (h : Linked next item m p l q)
    (he : ∀ a ∈ l.map Prod.fst, cell m' a = cell m a) : Linked next item m' p l q := by
  induction l generalizing p with
  | nil => exact h
  | cons x l ih =>
    obtain ⟨hp, c, hc, hx, hl⟩ := h
    refine ⟨hp, c, ?_, hx, ih hl fun a ha => he a ?_⟩
    · rw [he x.1 (by simp), hc]
    · exact List.mem_cons_of_mem _ ha

/-- A list ends in one way. -/
theorem Linked.unique (h : Linked next item m p l none) (h' : Linked next item m p l' none) :
    l = l' := by
  induction l generalizing p l' with
  | nil =>
    obtain rfl := linked_nil.mp h
    cases l' with
    | nil => rfl
    | cons y l' => exact absurd h'.1 (by simp)
  | cons x l ih =>
    obtain ⟨rfl, c, hc, hx, hl⟩ := h
    cases l' with
    | nil => exact absurd h' (by simp)
    | cons y l' =>
      obtain ⟨hxy, c', hc', hy, hl'⟩ := h'
      have hfst : x.1 = y.1 := Option.some.inj hxy
      obtain rfl : c = c' := Option.some.inj (hc.symm.trans (hfst ▸ hc'))
      rw [ih hl hl', Prod.ext hfst (hx.symm.trans hy)]

/-- **A list that ends meets no cell twice.** -/
theorem Linked.nodup (h : Linked next item m p l none) : (l.map Prod.fst).Nodup := by
  induction l generalizing p with
  | nil => exact List.nodup_nil
  | cons x l ih =>
    obtain ⟨-, c, hc, hx, hl⟩ := h
    refine List.nodup_cons.mpr ⟨fun hmem => ?_, ih hl⟩
    -- where the cell is met again, what is left is the list itself and shorter
    obtain ⟨y, hy, hyx⟩ := List.mem_map.mp hmem
    obtain ⟨A, B, rfl⟩ := List.append_of_mem hy
    obtain ⟨r, -, -, c', hc', -, hB⟩ := linked_append.mp hl
    obtain rfl : c = c' := Option.some.inj (hc.symm.trans (hyx ▸ hc'))
    have hlen := congrArg List.length (hl.unique hB)
    simp only [List.length_append, List.length_cons] at hlen
    omega

/-- So it is no longer than the arena. -/
theorem Linked.length_le (h : Linked next item m p l none) : l.length ≤ m.length := by
  have hsub : l.map Prod.fst ⊆ List.range m.length := by
    intro a ha
    obtain ⟨x, hx, rfl⟩ := List.mem_map.mp ha
    obtain ⟨c, hc, -⟩ := h.exists_cell hx
    exact List.mem_range.mpr (lt_length_of_cell hc)
  simpa using (h.nodup.subperm hsub).length_le

/-- **To set the link of the last cell** moves the end of a list. -/
theorem Linked.relink {a : ℕ} {i : α} (h : Linked next item m p (l ++ [(a, i)]) q)
    (hnodup : ((l ++ [(a, i)]).map Prod.fst).Nodup) (hi : item c = i) (hr : next c = r) :
    Linked next item (m.set a (some c)) p (l ++ [(a, i)]) r := by
  obtain ⟨s, hl, rfl, c₀, hc₀, -, -⟩ := linked_append.mp h
  have ha : a ∉ l.map Prod.fst := fun hmem => by
    rw [List.map_append] at hnodup
    exact (List.nodup_append.mp hnodup).2.2 a hmem a (by simp) rfl
  have hlt := lt_length_of_cell hc₀
  refine linked_append.mpr ⟨some a, hl.congr fun b hb => ?_, rfl, c, ?_, hi, hr⟩
  · rw [cell_set hlt, if_neg]
    rintro rfl
    exact ha hb
  · rw [cell_set hlt, if_pos rfl]

/-- **To change the item of a cell** changes it in the list. -/
theorem Linked.rewrite {a : ℕ} {i i' : α} {c' : β}
    (h : Linked next item m p (l ++ (a, i) :: l') q)
    (hnodup : ((l ++ (a, i) :: l').map Prod.fst).Nodup) (hc : cell m a = some c)
    (hnext : next c' = next c) (hi : item c' = i') :
    Linked next item (m.set a (some c')) p (l ++ (a, i') :: l') q := by
  obtain ⟨s, hl, rfl, c₀, hc₀, -, hl'⟩ := linked_append.mp h
  obtain rfl : c = c₀ := Option.some.inj (hc.symm.trans hc₀)
  have hlt := lt_length_of_cell hc
  have hother : ∀ b ∈ l.map Prod.fst ++ l'.map Prod.fst,
      cell (m.set a (some c')) b = cell m b := by
    intro b hb
    rw [cell_set hlt, if_neg]
    rintro rfl
    rw [List.map_append, List.map_cons] at hnodup
    exact (List.nodup_cons.mp (List.nodup_middle.mp hnodup)).1 hb
  refine linked_append.mpr ⟨some a, hl.congr fun b hb => hother b (List.mem_append_left _ hb), rfl,
    c', ?_, hi, ?_⟩
  · rw [cell_set hlt, if_pos rfl]
  · rw [hnext]
    exact hl'.congr fun b hb => hother b (List.mem_append_right _ hb)

/-- A list that ends starts at its first cell, if it has one. -/
theorem Linked.eq_head? (h : Linked next item m p l none) : p = l.head?.map Prod.fst := by
  cases l with
  | nil => exact h
  | cons x l => exact h.1

end Linked

end Arena

end BackendStudy
