import Mathlib.Data.List.Nodup
import Mathlib.Data.List.Pairwise
import Mathlib.Data.List.Perm.Basic

/-!
# Association lists

A finite map is a list of keys with their values, in which no two keys are equivalent
(`BackendStudy.Assoc.Keyed`). Which keys are equivalent is decided by a function that may take
different keys for the same. The order of the list does not matter to what is found in it
(`BackendStudy.Assoc.Keyed.find_perm`), and what changes it takes lists that are the same up to
order to lists that are: a key that it does not have is added (`BackendStudy.Assoc.keyed_cons`),
the value of a key is changed (`BackendStudy.Assoc.set`), a key is erased
(`BackendStudy.Assoc.erase`).
-/

namespace BackendStudy

namespace Assoc

variable {K V : Type} (eqv : K → K → Bool)

/-- The value of a key. -/
def find (l : List (K × V)) (k : K) : Option V := (l.find? fun x => eqv k x.1).map Prod.snd

/-- The value of a key is changed. -/
def set (l : List (K × V)) (k : K) (v : V) : List (K × V) :=
  l.map fun x => if eqv k x.1 then (x.1, v) else x

/-- A key is erased. -/
def erase (l : List (K × V)) (k : K) : List (K × V) := l.filter fun x => !eqv k x.1

/-- No two keys are equivalent. -/
def Keyed (l : List (K × V)) : Prop := l.Pairwise fun x y => eqv x.1 y.1 = false

variable {eqv} {l l' : List (K × V)} {k : K} {v : V} {x : K × V}

theorem find_eq_none_iff : find eqv l k = none ↔ ∀ x ∈ l, eqv k x.1 = false := by
  simp [find]

theorem keyed_nil : Keyed eqv ([] : List (K × V)) := List.Pairwise.nil

/-- **To add a key** that is not there. -/
theorem keyed_cons : Keyed eqv ((k, v) :: l) ↔ find eqv l k = none ∧ Keyed eqv l := by
  rw [Keyed, List.pairwise_cons, find_eq_none_iff]
  rfl

theorem Keyed.set (h : Keyed eqv l) : Keyed eqv (Assoc.set eqv l k v) := by
  refine List.pairwise_map.mpr (h.imp fun {x y} hxy => ?_)
  split_ifs <;> exact hxy

theorem Keyed.erase (h : Keyed eqv l) : Keyed eqv (Assoc.erase eqv l k) := h.filter _

theorem length_set : (set eqv l k v).length = l.length := List.length_map _

/-- The place of a key that is found. -/
theorem exists_middle (h : find eqv l k = some v) :
    ∃ A k' C, l = A ++ (k', v) :: C ∧ eqv k k' := by
  obtain ⟨⟨k', w⟩, hx, rfl⟩ := Option.map_eq_some_iff.mp h
  obtain ⟨A, C, rfl⟩ := List.append_of_mem (List.mem_of_find?_eq_some hx)
  exact ⟨A, k', C, rfl, List.find?_some (p := fun x : K × V => eqv k x.1) hx⟩

/-- To erase a key that is not there. -/
theorem erase_eq_self (h : find eqv l k = none) : erase eqv l k = l := by
  refine List.filter_eq_self.mpr fun x hx => ?_
  rw [find_eq_none_iff.mp h x hx]
  rfl

section Symm

variable (hsymm : ∀ k k', eqv k k' = eqv k' k)

include hsymm

theorem Keyed.perm (h : Keyed eqv l) (hl : l.Perm l') : Keyed eqv l' :=
  (hl.pairwise_iff fun {x y} hxy => (hsymm y.1 x.1).trans hxy).mp h

variable (htrans : ∀ k k' k'', eqv k k' → eqv k' k'' → eqv k k'')

include htrans

/-- The other keys are not equivalent to a key that one of them is equivalent to. -/
theorem Keyed.other {A C : List (K × V)} (h : Keyed eqv (A ++ x :: C)) (hx : eqv k x.1) :
    ∀ y ∈ A ++ C, eqv k y.1 = false := by
  intro y hy
  have hxy : eqv x.1 y.1 = false :=
    (List.pairwise_cons.mp (h.perm hsymm List.perm_middle)).1 y hy
  by_contra hky
  rw [htrans x.1 k y.1 ((hsymm x.1 k).trans hx) (by simpa using hky)] at hxy
  exact absurd hxy (by simp)

/-- What is found of a key that stands in a known place. -/
theorem Keyed.find_middle {A C : List (K × V)} (h : Keyed eqv (A ++ x :: C)) (hx : eqv k x.1) :
    find eqv (A ++ x :: C) k = some x.2 := by
  have hA : A.find? (fun y => eqv k y.1) = none := List.find?_eq_none.mpr fun y hy => by
    simp [h.other hsymm htrans hx y (List.mem_append_left _ hy)]
  rw [find, List.find?_append, hA, Option.none_or,
    List.find?_cons_of_pos (p := fun y : K × V => eqv k y.1) hx]
  rfl

/-- To change the value of a key that stands in a known place. -/
theorem Keyed.set_middle {A C : List (K × V)} (h : Keyed eqv (A ++ x :: C)) (hx : eqv k x.1) :
    Assoc.set eqv (A ++ x :: C) k v = A ++ (x.1, v) :: C := by
  have hsame : ∀ B : List (K × V), (∀ y ∈ B, eqv k y.1 = false) → Assoc.set eqv B k v = B := by
    intro B hB
    refine (List.map_congr_left fun y hy => ?_).trans (List.map_id B)
    rw [hB y hy, if_neg Bool.false_ne_true]
    rfl
  have hother := h.other hsymm htrans hx
  rw [Assoc.set, List.map_append, List.map_cons, if_pos hx]
  congr 1
  · exact hsame A fun y hy => hother y (List.mem_append_left _ hy)
  · congr 1
    exact hsame C fun y hy => hother y (List.mem_append_right _ hy)

/-- To erase a key that stands in a known place. -/
theorem Keyed.erase_middle {A C : List (K × V)} (h : Keyed eqv (A ++ x :: C)) (hx : eqv k x.1) :
    Assoc.erase eqv (A ++ x :: C) k = A ++ C := by
  have hother := h.other hsymm htrans hx
  rw [Assoc.erase, List.filter_append, List.filter_cons_of_neg (by simp [hx]),
    ← List.filter_append]
  exact List.filter_eq_self.mpr fun y hy => by simp [hother y hy]

/-- **The order does not matter** to what is found. -/
theorem Keyed.find_perm (h : Keyed eqv l) (hl : l.Perm l') : find eqv l k = find eqv l' k := by
  have h' := h.perm hsymm hl
  cases hf : l.find? fun x => eqv k x.1 with
  | none =>
    have hnone : find eqv l k = none := by rw [find, hf, Option.map_none]
    rw [hnone, eq_comm, find_eq_none_iff]
    exact fun x hx => find_eq_none_iff.mp hnone x (hl.mem_iff.mpr hx)
  | some x =>
    have hx := List.find?_some (p := fun x : K × V => eqv k x.1) hf
    obtain ⟨A, C, rfl⟩ := List.append_of_mem (hl.mem_iff.mp (List.mem_of_find?_eq_some hf))
    rw [h'.find_middle hsymm htrans hx, find, hf, Option.map_some]

end Symm

end Assoc

end BackendStudy
