import BackendStudy.Hiredis.Objects

/-!
# The stack of tasks

The tasks below the one that is being read are those of the arrays that are not complete
(`BackendStudy.Hiredis.Stack`). When an item has been read the reader moves to the next task, past
the arrays that are complete with it; these are the arrays that the machine completes, and their
objects are complete (`BackendStudy.Hiredis.moveLoop_spec`).
-/

namespace BackendStudy

namespace Hiredis

open Slots Redis

/-- The index of an item in the innermost array. -/
def idxIn : List Frame → ℤ
  | [] => -1
  | f :: _ => f.done.length

/-- The place of the task of the innermost array. -/
def parentIn : List Frame → Option ℕ
  | [] => none
  | _ :: fs => some fs.length

/-- **The task of an item** inside of these arrays. -/
structure TaskIn (rstack : List ReadTask) (fs : List Frame) (t : ReadTask) : Prop where
  place : rstack[fs.length]? = some t
  idx : t.idx = idxIn fs
  parent : t.parent = parentIn fs

/-- **The tasks of the arrays that are not complete**, with their objects. -/
inductive Stack (rstack : List ReadTask) : List Frame → List ℕ → Prop
  /-- There are none. -/
  | nil : Stack rstack [] []
  /-- One more, inside of the others. -/
  | cons {f : Frame} {fs : List Frame} {p : ℕ} {ps : List ℕ} {t : ReadTask} :
      TaskIn rstack fs t → t.type = some .array → t.elements = f.elements → t.obj = some p →
      Stack rstack fs ps → Stack rstack (f :: fs) (p :: ps)

section

variable {h : Objects} {p q : ℕ} {r : Reply} {ps ns qs : List ℕ} {fs : List Frame} {f : Frame}
  {rstack : List ReadTask} {t t' : ReadTask} {k : ℕ}

/-- Tasks do not depend on those above them. -/
theorem TaskIn.set (ht : TaskIn rstack fs t) (hk : fs.length < k) :
    TaskIn (rstack.set k t') fs t :=
  ⟨by rw [List.getElem?_set_ne (by omega), ht.place], ht.idx, ht.parent⟩

theorem Stack.set (hs : Stack rstack fs ps) (hk : fs.length ≤ k) :
    Stack (rstack.set k t') fs ps := by
  induction hs with
  | nil => exact .nil
  | cons ht htype helements hobj _ ih =>
    rw [List.length_cons] at hk
    exact .cons (ht.set (by omega)) htype helements hobj (ih (by omega))

/-- What the loop does where there is an array below. -/
theorem moveLoop_succ {i : ℕ} (ht : rstack[i + 1]? = some t) (ht' : rstack[i]? = some t')
    (htype : t'.type = some .array) (hlt : t.idx < t'.elements) :
    moveLoop (i + 1) rstack =
      if t.idx = t'.elements - 1 then moveLoop i rstack
      else .ok ((i : ℤ) + 1, rstack.set (i + 1)
        { t with type := none, elements := -1, idx := t.idx + 1 }) := by
  have hin : i + 1 < rstack.length := (List.getElem?_eq_some_iff.mp ht).1
  rw [moveLoop]
  simp only [Slots.get, ht, ok_bind, ht', check, htype, if_true, if_pos hlt, put, if_pos hin]

/-- **The next task.** An item has been read, and its object is in the innermost array. With it
arrays may be complete, which are then held by their objects: the root is one of them, or the next
task is that of an item in the innermost array that is not complete. -/
theorem moveLoop_spec (hs : Stack rstack fs ps) (ht : TaskIn rstack fs t)
    (hb : Building h (some q) fs ps ns) (hr : Holds h q r qs) :
    ((finish fs r).2 = none ∧ ∃ rstack' ps' ns' t',
      moveLoop fs.length rstack = .ok (((finish fs r).1.length : ℤ), rstack') ∧
        rstack'.length = rstack.length ∧ Stack rstack' (finish fs r).1 ps' ∧
        TaskIn rstack' (finish fs r).1 t' ∧ t'.type = none ∧ (finish fs r).1 ≠ [] ∧
        Building h none (finish fs r).1 ps' ns' ∧ ns'.Perm (ns ++ qs) ∧
        ps'.getLast? = ps.getLast?) ∨
      ∃ r' p' ns', finish fs r = ([], some r') ∧ moveLoop fs.length rstack = .ok (-1, rstack) ∧
        ps.getLast?.or (some q) = some p' ∧ Holds h p' r' ns' ∧ ns'.Perm (ns ++ qs) := by
  -- by the stack: the reply completes no array, or the innermost one, or that and others around it
  induction hs generalizing q r qs ns t with
  | nil =>
    cases hb
    exact .inr ⟨r, q, qs, rfl, rfl, rfl, hr, .refl _⟩
  | @cons f fs p ps u hu htype helements hobj hs ih =>
    cases hb with
    | @cons _ _ _ _ _ es ms ns hp hlt hes hb =>
      have hmem : rstack[fs.length + 1]? = some t := ht.place
      have hidx : t.idx = f.done.length := ht.idx
      have hmove := moveLoop_succ hmem hu.place htype (by omega)
      rw [hidx, helements] at hmove
      rw [List.length_cons, finish]
      by_cases hfull : f.done.length + 1 = f.elements
      · -- the array is complete, and with it perhaps the one around it
        have hp' : h p = some ⟨.array, 0, [], (es ++ [q]).map some⟩ := by
          rw [hp, show f.elements - f.done.length - 1 = 0 by omega]
          simp
        have harray : Holds h p ⟨.array, 0, [], f.done ++ [r]⟩ (p :: (ms ++ qs)) :=
          .obj hp' (.inl rfl) (hes.snoc hr)
        have hperm : (ns ++ p :: (ms ++ qs)).Perm (p :: (ms ++ ns) ++ qs) := by
          refine List.perm_middle.trans (.cons p ?_)
          rw [← List.append_assoc]
          exact List.perm_append_comm.append_right qs
        rw [if_pos hfull, hmove, if_pos (by omega)]
        rcases ih hu hb harray with ⟨ho, rstack', ps', ns', t', hlook, hlen, hs', ht', htype', hne,
          hb', hperm', hlast⟩ | ⟨r', p', ns', hfin, hlook, hlast, hr', hperm'⟩
        · refine .inl ⟨ho, rstack', ps', ns', t', hlook, hlen, hs', ht', htype', hne, hb',
            hperm'.trans hperm, ?_⟩
          have hne' : ps ≠ [] := fun hps => hne (List.length_eq_zero_iff.mp (by
            rw [← hb'.length_eq, List.length_eq_zero_iff, ← List.getLast?_eq_none_iff, hlast, hps]
            rfl))
          rw [hlast, List.getLast?_cons, List.getLast?_eq_some_getLast hne', Option.getD_some]
        · refine .inr ⟨r', p', ns', hfin, hlook, ?_, hr', hperm'.trans hperm⟩
          rw [← hlast, List.getLast?_cons, Option.some_or]
          cases ps.getLast? <;> rfl
      -- the array has elements left: its task goes on with the next one
      · rw [if_neg hfull, hmove, if_neg (by omega)]
        have hin : fs.length + 1 < rstack.length := (List.getElem?_eq_some_iff.mp hmem).1
        refine .inl ⟨rfl, _, p :: ps, p :: ((ms ++ qs) ++ ns),
          { t with type := none, elements := -1, idx := f.done.length + 1 }, rfl,
          List.length_set, ?_, ⟨?_, ?_, ht.parent⟩, rfl, List.cons_ne_nil _ _, ?_, ?_, rfl⟩
        · exact .cons (hu.set (by omega)) htype helements hobj (hs.set (by omega))
        · exact List.getElem?_set_self hin
        · simp [idxIn]
        -- the cell of the reply is set, and one cell less is empty
        · have hp' : h p = some ⟨.array, 0, [], (es ++ [q]).map some ++
              none :: List.replicate (f.elements - (f.done ++ [r]).length - 1) none⟩ := by
            have hrest : f.elements - f.done.length - 1 =
                f.elements - (f.done ++ [r]).length - 1 + 1 := by simp; omega
            rw [hp]
            simp [hrest, List.replicate_succ]
          exact .cons hp' (by simp; omega) (hes.snoc hr) hb
        · have happ : ms ++ (ns ++ qs) = ms ++ ns ++ qs := (List.append_assoc _ _ _).symm
          rw [List.append_assoc, List.cons_append, ← happ]
          refine .cons p ?_
          exact List.perm_append_comm.append_left ms

end

end Hiredis

end BackendStudy
