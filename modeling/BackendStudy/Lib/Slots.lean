import Mathlib.Data.List.Induction
import Mathlib.Tactic.Common

/-!
# Arrays of fixed capacity

A C array is a list of fixed length that is read and written by index, and an index
outside of it is an error (`BackendStudy.Slots.get`, `BackendStudy.Slots.put`,
`BackendStudy.Slots.blit`). The loops that move a part of an array by one place, or copy it
from another array, are `for` loops over indices (`BackendStudy.Slots.forUp`,
`BackendStudy.Slots.forDown`), and their results are described by the parts of the array:
what stands before the part that moves, the part, and what stands after it
(`BackendStudy.Slots.forDown_shift`, `BackendStudy.Slots.forUp_shift`,
`BackendStudy.Slots.forUp_copy`). The cell that a shift leaves behind holds a value that was
in the array before.

A loop that works on two arrays side by side does on each what it would do on that array
alone (`BackendStudy.Slots.forUp_pair`, `BackendStudy.Slots.forDown_pair`).
-/

namespace BackendStudy

namespace Slots

universe u v

variable {ε : Type v} {α β σ τ : Type u}

@[simp] theorem ok_bind (a : α) (f : α → Except ε β) : (Except.ok a >>= f) = f a := rfl

@[simp] theorem error_bind (e : ε) (f : α → Except ε β) : (Except.error e >>= f) = .error e := rfl

/-- A sequence that comes to a result has come through its first part. -/
theorem bind_eq_ok {x : Except ε α} {f : α → Except ε β} {b : β} (h : (x >>= f) = .ok b) :
    ∃ a, x = .ok a ∧ f a = .ok b := by
  rcases x with e | a
  · exact absurd h (by simp)
  · exact ⟨a, rfl, h⟩

/-! ### Access -/

/-- `a[i]`, an error `e` outside of the array. -/
def get (e : ε) (a : List α) (i : ℕ) : Except ε α :=
  match a[i]? with
  | some x => .ok x
  | none => .error e

/-- `a[i] = x`, an error `e` outside of the array. -/
def put (e : ε) (a : List α) (i : ℕ) (x : α) : Except ε (List α) :=
  if i < a.length then .ok (a.set i x) else .error e

/-- **A list cut at a position.** -/
theorem exists_cut_at {a : List α} {i : ℕ} (hi : i < a.length) :
    ∃ A x C, a = A ++ x :: C ∧ A.length = i := by
  refine ⟨a.take i, a[i], a.drop (i + 1), ?_, ?_⟩
  · rw [← List.drop_eq_getElem_cons hi, List.take_append_drop]
  · rw [List.length_take]
    omega

/-- A list with something in it, and its last element. -/
theorem exists_last {a : List α} (ha : 0 < a.length) : ∃ A x, a = A ++ [x] := by
  rcases List.eq_nil_or_concat a with rfl | ⟨A, x, rfl⟩
  · exact absurd ha (by simp)
  · exact ⟨A, x, List.concat_eq_append⟩

/-- `a[i - 1]`, where `i - 1` may be negative. -/
def getPred (e : ε) (a : List α) : ℕ → Except ε α
  | 0 => .error e
  | i + 1 => get e a i

/-- `memcpy` to the cells from `i` on, an error `e` outside of the array. -/
def blit (e : ε) (a : List α) (i : ℕ) (xs : List α) : Except ε (List α) :=
  if i + xs.length ≤ a.length then .ok (a.take i ++ (xs ++ a.drop (i + xs.length))) else .error e

section Access

variable {e : ε} {A B C xs : List α} {x y : α} {i : ℕ}

theorem blit_at (hi : i = A.length) (h : xs.length ≤ B.length) :
    blit e (A ++ B) i xs = .ok (A ++ (xs ++ B.drop xs.length)) := by
  have hfit : i + xs.length ≤ (A ++ B).length := by
    rw [List.length_append]
    omega
  rw [blit, if_pos hfit, hi, List.take_left, List.drop_append]
  simp

/-- Copying over a part of the array. -/
theorem blit_part (hi : i = A.length) (h : xs.length = B.length) :
    blit e (A ++ (B ++ C)) i xs = .ok (A ++ (xs ++ C)) := by
  rw [blit_at hi (by rw [List.length_append]; omega), h, List.drop_left]

theorem blit_eq_ok {a b : List α} (h : blit e a i xs = .ok b) :
    i + xs.length ≤ a.length ∧ b.length = a.length := by
  unfold blit at h
  split_ifs at h with hfit
  obtain rfl := Except.ok.inj h
  refine ⟨hfit, ?_⟩
  simp only [List.length_append, List.length_take, List.length_drop]
  omega

theorem blit_full (hi : i = A.length) (h : B.length < xs.length) :
    blit e (A ++ B) i xs = .error e := by
  rw [blit, if_neg]
  rw [List.length_append]
  omega

theorem get_at (hi : i = A.length) : get e (A ++ x :: C) i = .ok x := by
  simp [get, hi]

theorem put_at (hi : i = A.length) : put e (A ++ y :: C) i x = .ok (A ++ x :: C) := by
  simp [put, hi]

theorem get_eq_ok {a : List α} (h : get e a i = .ok x) : a[i]? = some x := by
  unfold get at h
  split at h
  · rename_i y hy
    rw [hy, Except.ok.inj h]
  · exact absurd h (by simp)

theorem get_of_getElem? {a : List α} (h : a[i]? = some x) : get e a i = .ok x := by
  rw [get, h]

end Access

/-! ### Loops over indices -/

/-- `for (i = lo; i < lo + count; i++) body`. -/
def forUp (body : ℕ → σ → Except ε σ) : ℕ → ℕ → σ → Except ε σ
  | _, 0, s => .ok s
  | lo, count + 1, s => body lo s >>= forUp body (lo + 1) count

/-- `for (i = lo + count - 1; i >= lo; i--) body`. -/
def forDown (body : ℕ → σ → Except ε σ) (lo : ℕ) : ℕ → σ → Except ε σ
  | 0, s => .ok s
  | count + 1, s => body (lo + count) s >>= forDown body lo count

/-- **The rule for loops over indices**: what holds before the first round and what every round
carries on to the next index holds behind the last one. -/
theorem forUp_induct {body : ℕ → σ → Except ε σ} {Inv : ℕ → σ → Prop} {lo count : ℕ} {s : σ}
    (h : Inv lo s) (hstep : ∀ i s, lo ≤ i → i < lo + count → Inv i s →
      ∃ s', body i s = .ok s' ∧ Inv (i + 1) s') :
    ∃ s', forUp body lo count s = .ok s' ∧ Inv (lo + count) s' := by
  induction count generalizing lo s with
  | zero => exact ⟨s, rfl, h⟩
  | succ count ih =>
    obtain ⟨s₁, hbody, h₁⟩ := hstep lo s (Nat.le_refl lo) (by omega) h
    obtain ⟨s₂, hloop, h₂⟩ := ih h₁ fun i s hlo hi => hstep i s (by omega) (by omega)
    refine ⟨s₂, ?_, ?_⟩
    · rw [forUp, hbody, ok_bind, hloop]
    · rwa [show lo + (count + 1) = lo + 1 + count by omega]

/-- A loop body that works on two arrays. -/
def both (f : ℕ → σ → Except ε σ) (g : ℕ → τ → Except ε τ) (i : ℕ) (s : σ × τ) :
    Except ε (σ × τ) := do
  let a ← f i s.1
  let b ← g i s.2
  .ok (a, b)

theorem forUp_pair {f : ℕ → σ → Except ε σ} {g : ℕ → τ → Except ε τ} {a a' : σ} {b b' : τ}
    {lo count : ℕ} (hf : forUp f lo count a = .ok a') (hg : forUp g lo count b = .ok b') :
    forUp (both f g) lo count (a, b) = .ok (a', b') := by
  induction count generalizing lo a b with
  | zero =>
    obtain rfl := Except.ok.inj hf
    obtain rfl := Except.ok.inj hg
    rfl
  | succ count ih =>
    simp only [forUp] at hf hg ⊢
    cases hfi : f lo a with
    | error e => exact absurd hf (by simp [hfi])
    | ok a₁ =>
      cases hgi : g lo b with
      | error e => exact absurd hg (by simp [hgi])
      | ok b₁ =>
        rw [hfi, ok_bind] at hf
        rw [hgi, ok_bind] at hg
        simpa [both, hfi, hgi] using ih hf hg

theorem forDown_pair {f : ℕ → σ → Except ε σ} {g : ℕ → τ → Except ε τ} {a a' : σ} {b b' : τ}
    {lo count : ℕ} (hf : forDown f lo count a = .ok a') (hg : forDown g lo count b = .ok b') :
    forDown (both f g) lo count (a, b) = .ok (a', b') := by
  induction count generalizing a b with
  | zero =>
    obtain rfl := Except.ok.inj hf
    obtain rfl := Except.ok.inj hg
    rfl
  | succ count ih =>
    simp only [forDown] at hf hg ⊢
    cases hfi : f (lo + count) a with
    | error e => exact absurd hf (by simp [hfi])
    | ok a₁ =>
      cases hgi : g (lo + count) b with
      | error e => exact absurd hg (by simp [hgi])
      | ok b₁ =>
        rw [hfi, ok_bind] at hf
        rw [hgi, ok_bind] at hg
        simpa [both, hfi, hgi] using ih hf hg

/-! ### Moving a part of an array -/

/-- `a[i + d + 1] = a[i + d]`. -/
def up (e : ε) (d i : ℕ) (a : List α) : Except ε (List α) :=
  get e a (i + d) >>= put e a (i + d + 1)

/-- `a[i + d] = a[i + d + 1]`. -/
def down (e : ε) (d i : ℕ) (a : List α) : Except ε (List α) :=
  get e a (i + d + 1) >>= put e a (i + d)

/-- `a[i + d] = src[i + k]`. -/
def copy (e : ε) (src : List α) (d k i : ℕ) (a : List α) : Except ε (List α) :=
  get e src (i + k) >>= put e a (i + d)

section Move

variable {e : ε} {n d : ℕ}

/-- **A shift up** moves the part `B` by one place, over the cell `x` behind it. -/
theorem forDown_shift (A B : List α) (x : α) (C : List α) (hA : A.length = n + d) :
    ∃ y ∈ B ++ [x], forDown (up e d) n B.length (A ++ (B ++ x :: C)) =
      .ok (A ++ y :: (B ++ C)) := by
  induction B using List.reverseRecOn generalizing x C with
  | nil => exact ⟨x, by simp, rfl⟩
  | append_singleton B b ih =>
    have hstep : up e d (n + B.length) (A ++ (B ++ [b] ++ x :: C)) =
        .ok (A ++ (B ++ b :: b :: C)) := by
      have hget : get e (A ++ (B ++ [b] ++ x :: C)) (n + B.length + d) = .ok b := by
        have := get_at (e := e) (A := A ++ B) (x := b) (C := x :: C) (i := n + B.length + d)
          (by simp; omega)
        simpa using this
      have hput := put_at (e := e) (A := A ++ B ++ [b]) (y := x) (x := b) (C := C)
        (i := n + B.length + d + 1) (by simp; omega)
      rw [up, hget, ok_bind]
      simpa using hput
    obtain ⟨y, hy, hloop⟩ := ih b (b :: C)
    refine ⟨y, by simp only [List.mem_append, List.mem_singleton] at hy ⊢; tauto, ?_⟩
    rw [List.length_append, List.length_singleton, forDown, hstep, ok_bind, hloop]
    simp

/-- **A shift down** moves the part `B` by one place, over the cell `x` before it. -/
theorem forUp_shift (A : List α) (x : α) (B C : List α) (hA : A.length = n + d) :
    ∃ y ∈ x :: B, forUp (down e d) n B.length (A ++ x :: (B ++ C)) = .ok (A ++ (B ++ y :: C)) := by
  induction B generalizing A x n with
  | nil => exact ⟨x, by simp, rfl⟩
  | cons b B ih =>
    have hstep : down e d n (A ++ x :: (b :: B ++ C)) = .ok (A ++ b :: (b :: B ++ C)) := by
      have hget := get_at (e := e) (A := A ++ [x]) (x := b) (C := B ++ C) (i := n + d + 1)
        (by simp; omega)
      have hget' : get e (A ++ x :: (b :: B ++ C)) (n + d + 1) = .ok b := by simpa using hget
      rw [down, hget', ok_bind]
      exact put_at hA.symm
    obtain ⟨y, hy, hloop⟩ := @ih (n + 1) (A ++ [b]) b (by simp; omega)
    refine ⟨y, by simp only [List.mem_cons] at hy ⊢; tauto, ?_⟩
    rw [List.length_cons, forUp, hstep, ok_bind]
    simpa using hloop

/-- **A copy** of the part `B` of another array. -/
theorem forUp_copy (S B S' D E F : List α) {k : ℕ} (hS : S.length = n + k)
    (hD : D.length = n + d) (hE : E.length = B.length) :
    forUp (copy e (S ++ (B ++ S')) d k) n B.length (D ++ (E ++ F)) = .ok (D ++ (B ++ F)) := by
  induction B generalizing S D E n with
  | nil =>
    obtain rfl : E = [] := List.length_eq_zero_iff.mp hE
    rfl
  | cons b B ih =>
    obtain ⟨x, E, rfl⟩ : ∃ x E', E = x :: E' := List.exists_cons_of_length_eq_add_one hE
    have hstep : copy e (S ++ (b :: B ++ S')) d k n (D ++ (x :: E ++ F)) =
        .ok (D ++ b :: (E ++ F)) := by
      have hget : get e (S ++ (b :: B ++ S')) (n + k) = .ok b := get_at hS.symm
      rw [copy, hget, ok_bind]
      exact put_at hD.symm
    have hloop := @ih (n + 1) (S ++ [b]) (D ++ [b]) E (by simp; omega) (by simp; omega)
      (by simpa using hE)
    rw [List.length_cons, forUp, hstep, ok_bind]
    simpa using hloop

end Move

end Slots

end BackendStudy
