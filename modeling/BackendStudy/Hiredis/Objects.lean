import BackendStudy.Hiredis.Protocol
import Mathlib.Data.List.Perm.Basic
import Mathlib.Data.List.Nodup

/-!
# Replies in memory

A pointer holds a reply if the objects from it on are the reply, with the objects that it takes
(`BackendStudy.Hiredis.Holds`). While it is being read, a reply is a chain of arrays, each of which
has the next one as the element behind those that have been read, and null pointers behind it
(`BackendStudy.Hiredis.Building`); a new object is entered into the innermost one
(`BackendStudy.Hiredis.Building.attach`), and with it arrays may be complete
(`BackendStudy.Hiredis.Building.finish`).

`freeReplyObject` frees the objects of a tree, complete or not, each once, and nothing else
(`BackendStudy.Hiredis.Owns.freeReplyObject_eq`).
-/

namespace BackendStudy

namespace Hiredis

open Slots Redis

/-- The objects that are there. -/
abbrev Objects := ℕ → Option ReplyObj

mutual

/-- **A pointer holds a reply**, in these objects. -/
inductive Holds (h : Objects) : ℕ → Reply → List ℕ → Prop
  /-- The object and those of its elements, which only an array has. -/
  | obj {p : ℕ} {t : ReplyType} {z : ℤ} {s : Str} {es : List ℕ} {rs : List Reply} {ns : List ℕ} :
      h p = some ⟨t, z, s, es.map some⟩ → (t = .array ∨ es = []) → HoldsAll h es rs ns →
      Holds h p ⟨t, z, s, rs⟩ (p :: ns)

/-- **Pointers hold replies**, each in its own objects. -/
inductive HoldsAll (h : Objects) : List ℕ → List Reply → List ℕ → Prop
  /-- Nothing. -/
  | nil : HoldsAll h [] [] []
  /-- One more pointer. -/
  | cons {p : ℕ} {r : Reply} {ns : List ℕ} {es : List ℕ} {rs : List Reply} {ms : List ℕ} :
      Holds h p r ns → HoldsAll h es rs ms → HoldsAll h (p :: es) (r :: rs) (ns ++ ms)

end

mutual

/-- **What a pointer owns**: all objects that are freed with it. -/
inductive Owns (h : Objects) : Option ℕ → List ℕ → Prop
  /-- The null pointer. -/
  | null : Owns h none []
  /-- An object, and what its elements own. -/
  | obj {p : ℕ} {o : ReplyObj} {es : List (Option ℕ)} {ns : List ℕ} : h p = some o →
      es = (if o.type = .array then o.element else []) → OwnsAll h es ns →
      Owns h (some p) (p :: ns)

/-- **What pointers own**. -/
inductive OwnsAll (h : Objects) : List (Option ℕ) → List ℕ → Prop
  /-- Nothing. -/
  | nil : OwnsAll h [] []
  /-- One more pointer. -/
  | cons {e : Option ℕ} {ns : List ℕ} {es : List (Option ℕ)} {ms : List ℕ} :
      Owns h e ns → OwnsAll h es ms → OwnsAll h (e :: es) (ns ++ ms)

end

/-- **The arrays that are not complete**, the innermost one first, with what is being read in it.
In each, the elements that have been read are in front of the one that is being read. -/
inductive Building (h : Objects) : Option ℕ → List Frame → List ℕ → List ℕ → Prop
  /-- There are none. -/
  | nil {child : Option ℕ} : Building h child [] [] []
  /-- One more, inside of the others. -/
  | cons {child : Option ℕ} {f : Frame} {fs : List Frame} {p : ℕ} {ps es ms ns : List ℕ} :
      h p = some ⟨.array, 0, [], es.map some ++
        child :: List.replicate (f.elements - f.done.length - 1) none⟩ →
      f.done.length < f.elements → HoldsAll h es f.done ms → Building h (some p) fs ps ns →
      Building h child (f :: fs) (p :: ps) (p :: (ms ++ ns))

namespace Heap

/-- The memory without these objects. -/
def free (h : Heap) (ns : List ℕ) : Heap :=
  { h with obj := fun q => if q ∈ ns then none else h.obj q }

end Heap

section

variable {h h' : Objects} {g : Heap} {p q : ℕ} {e child : Option ℕ} {r : Reply} {rs : List Reply}
  {es ps ns ms qs : List ℕ} {xs : List (Option ℕ)} {o : ReplyObj} {fs : List Frame} {f : Frame}

/-! ### Other objects -/

mutual

/-- What a pointer holds does not depend on other objects. -/
theorem Holds.congr {p : ℕ} {r : Reply} {ns : List ℕ} (hr : Holds h p r ns)
    (heq : ∀ q ∈ ns, h' q = h q) : Holds h' p r ns := by
  cases hr with
  | obj hp ht hes =>
    refine .obj ((heq _ List.mem_cons_self).trans hp) ht (hes.congr fun q hq => heq q ?_)
    exact List.mem_cons_of_mem _ hq

theorem HoldsAll.congr {es : List ℕ} {rs : List Reply} {ns : List ℕ} (hrs : HoldsAll h es rs ns)
    (heq : ∀ q ∈ ns, h' q = h q) : HoldsAll h' es rs ns := by
  cases hrs with
  | nil => exact .nil
  | cons hr hrs =>
    exact .cons (hr.congr fun q hq => heq q (List.mem_append_left _ hq))
      (hrs.congr fun q hq => heq q (List.mem_append_right _ hq))

end

theorem Building.congr (hb : Building h child fs ps ns) (heq : ∀ q ∈ ns, h' q = h q) :
    Building h' child fs ps ns := by
  induction hb with
  | nil => exact .nil
  | cons hp hlt hes _ ih =>
    refine .cons ((heq _ List.mem_cons_self).trans hp) hlt
      (hes.congr fun q hq => heq q ?_) (ih fun q hq => heq q ?_)
    · exact List.mem_cons_of_mem _ (List.mem_append_left _ hq)
    · exact List.mem_cons_of_mem _ (List.mem_append_right _ hq)

mutual

/-- What is held is there. -/
theorem Holds.isSome {p : ℕ} {r : Reply} {ns : List ℕ} (hr : Holds h p r ns) :
    ∀ q ∈ ns, (h q).isSome := by
  cases hr with
  | obj hp _ hes =>
    intro q hq
    rcases List.mem_cons.mp hq with rfl | hq
    · rw [hp]
      rfl
    · exact hes.isSome q hq

theorem HoldsAll.isSome {es : List ℕ} {rs : List Reply} {ns : List ℕ} (hrs : HoldsAll h es rs ns) :
    ∀ q ∈ ns, (h q).isSome := by
  cases hrs with
  | nil => exact fun q hq => absurd hq List.not_mem_nil
  | cons hr hrs =>
    intro q hq
    rcases List.mem_append.mp hq with hq | hq
    · exact hr.isSome q hq
    · exact hrs.isSome q hq

end

/-- An object without elements. -/
theorem Holds.leaf {t : ReplyType} {z : ℤ} {s : Str} (hp : h p = some ⟨t, z, s, []⟩) :
    Holds h p ⟨t, z, s, []⟩ [p] := by
  rw [← List.map_nil (f := some)] at hp
  exact .obj hp (.inr rfl) .nil

theorem HoldsAll.length_eq (hrs : HoldsAll h es rs ns) : es.length = rs.length := by
  induction rs generalizing es ns with
  | nil =>
    cases hrs
    rfl
  | cons r rs ih =>
    cases hrs with
    | cons _ hrs => rw [List.length_cons, List.length_cons, ih hrs]

theorem HoldsAll.snoc (hrs : HoldsAll h es rs ns) (hr : Holds h p r ms) :
    HoldsAll h (es ++ [p]) (rs ++ [r]) (ns ++ ms) := by
  induction rs generalizing es ns with
  | nil =>
    cases hrs
    have hone := HoldsAll.cons hr .nil
    rwa [List.append_nil] at hone
  | cons r₁ rs ih =>
    cases hrs with
    | cons hr₁ hrs =>
      rw [List.append_assoc]
      exact .cons hr₁ (ih hrs)

/-! ### What is freed -/

theorem OwnsAll.append {ys : List (Option ℕ)} (hxs : OwnsAll h xs ns) (hys : OwnsAll h ys ms) :
    OwnsAll h (xs ++ ys) (ns ++ ms) := by
  induction xs generalizing ns with
  | nil =>
    cases hxs
    exact hys
  | cons x xs ih =>
    cases hxs with
    | cons hx hxs =>
      rw [List.append_assoc]
      exact .cons hx (ih hxs)

theorem ownsAll_nulls (k : ℕ) : OwnsAll h (List.replicate k none) [] := by
  induction k with
  | zero => exact .nil
  | succ k ih => exact .cons .null ih

mutual

/-- What holds a reply owns it. -/
theorem Holds.owns {p : ℕ} {r : Reply} {ns : List ℕ} (hr : Holds h p r ns) :
    Owns h (some p) ns := by
  cases hr with
  | @obj _ t z s es rs ns hp ht hes =>
    refine .obj hp ?_ hes.owns
    dsimp only
    split_ifs with harray
    · rfl
    · rw [ht.resolve_left harray, List.map_nil]

theorem HoldsAll.owns {es : List ℕ} {rs : List Reply} {ns : List ℕ} (hrs : HoldsAll h es rs ns) :
    OwnsAll h (es.map some) ns := by
  cases hrs with
  | nil => exact .nil
  | cons hr hrs => exact .cons hr.owns hrs.owns

end

mutual

theorem Owns.congr {e : Option ℕ} {ns : List ℕ} :
    Owns h e ns → (∀ q ∈ ns, h' q = h q) → Owns h' e ns
  | .null, _ => .null
  | .obj hp hes' hes, heq =>
    .obj ((heq _ List.mem_cons_self).trans hp) hes'
      (hes.congr fun q hq => heq q (List.mem_cons_of_mem _ hq))

theorem OwnsAll.congr {xs : List (Option ℕ)} {ns : List ℕ} :
    OwnsAll h xs ns → (∀ q ∈ ns, h' q = h q) → OwnsAll h' xs ns
  | .nil, _ => .nil
  | .cons he hxs, heq =>
    .cons (he.congr fun q hq => heq q (List.mem_append_left _ hq))
      (hxs.congr fun q hq => heq q (List.mem_append_right _ hq))

end

/-- **An unfinished reply is owned by its root**: the outermost array, or what is being read where
there is no array. -/
theorem Building.owns (hb : Building h child fs ps ns) (hchild : Owns h child ms) :
    ∃ ks, Owns h (ps.getLast?.or child) ks ∧ ks.Perm (ns ++ ms) := by
  induction hb generalizing ms with
  | nil => exact ⟨ms, hchild, .refl _⟩
  | @cons child f fs p ps es ds ns hp hlt hes hb ih =>
    have hp' : Owns h (some p) (p :: (ds ++ (ms ++ []))) :=
      .obj hp rfl (hes.owns.append (.cons hchild (ownsAll_nulls _)))
    obtain ⟨ks, hks, hperm⟩ := ih hp'
    refine ⟨ks, ?_, hperm.trans ?_⟩
    · cases ps with
      | nil => exact hks
      | cons q ps =>
        rw [List.getLast?_cons_cons]
        rw [List.getLast?_eq_getLast_of_ne_nil (List.cons_ne_nil q ps), Option.some_or] at hks ⊢
        exact hks
    · rw [List.append_nil]
      have hswap : (ns ++ (ds ++ ms)).Perm (ds ++ ns ++ ms) := by
        rw [← List.append_assoc]
        exact List.perm_append_comm.append_right ms
      exact List.perm_middle.trans (hswap.cons p)

theorem Heap.free_nil : g.free [] = g := by
  simp [Heap.free]

theorem Heap.free_free : (g.free ns).free ms = g.free (ns ++ ms) := by
  simp only [Heap.free, List.mem_append, Heap.mk.injEq, and_true]
  funext q
  by_cases hq : q ∈ ms <;> simp [hq]

theorem Heap.free_obj_of_notMem (hq : q ∉ ns) : (g.free ns).obj q = g.obj q := if_neg hq

/-- The loop over elements frees what they own. -/
theorem freeElements_eq {depth : ℕ}
    (hdepth : ∀ {g : Heap} {e ns}, Owns g.obj e ns → ns.Nodup → ns.length ≤ depth →
      g.freeReplyObject depth e = .ok (g.free ns))
    (hxs : OwnsAll g.obj xs ns) (hnodup : ns.Nodup) (hlen : ns.length ≤ depth) :
    xs.foldlM (Heap.freeReplyObject depth) g = .ok (g.free ns) := by
  induction xs generalizing g ns with
  | nil =>
    cases hxs
    rw [Heap.free_nil]
    rfl
  | cons x xs ih =>
    cases hxs with
    | @cons _ ks _ ms hx hxs =>
      obtain ⟨hks, hms, hapart⟩ := List.nodup_append.mp hnodup
      rw [List.length_append] at hlen
      rw [List.foldlM_cons, hdepth hx hks (by omega), ok_bind, ← Heap.free_free]
      refine ih (hxs.congr fun q hq => Heap.free_obj_of_notMem fun hk => ?_) hms (by omega)
      exact hapart q hk q hq rfl

/-- **What is freed**: all that is owned, and nothing else, each object once. -/
theorem Owns.freeReplyObject_eq {depth : ℕ} (he : Owns g.obj e ns) (hnodup : ns.Nodup)
    (hlen : ns.length ≤ depth) : g.freeReplyObject depth e = .ok (g.free ns) := by
  induction depth generalizing g e ns with
  | zero =>
    cases he with
    | null => rw [Heap.free_nil, Heap.freeReplyObject]
    | obj _ _ _ => exact absurd hlen (by simp)
  | succ depth ih =>
    cases he with
    | null => rw [Heap.free_nil, Heap.freeReplyObject]
    | @obj p o es ms hp hes' hes =>
      subst hes'
      obtain ⟨hnotMem, hms⟩ := List.nodup_cons.mp hnodup
      have hrest := freeElements_eq ih hes hms (by simpa using hlen)
      have hp' : (g.free ms).obj p = some o := (Heap.free_obj_of_notMem hnotMem).trans hp
      rw [Heap.freeReplyObject, Heap.deref, hp]
      simp only [Option.elim_some, ok_bind]
      rw [hrest, ok_bind, Heap.deref, hp']
      simp only [Option.elim_some, ok_bind, Heap.free, Except.ok.injEq, Heap.mk.injEq, and_true]
      funext q
      by_cases hq : q = p
      · simp [hq]
      · simp [hq]

/-! ### What is entered -/

theorem Building.length_eq (hb : Building h child fs ps ns) : ps.length = fs.length := by
  induction hb with
  | nil => rfl
  | cons _ _ _ _ ih => rw [List.length_cons, List.length_cons, ih]

theorem Building.isSome (hb : Building h child fs ps ns) : ∀ q ∈ ns, (h q).isSome := by
  induction hb with
  | nil => exact fun q hq => absurd hq List.not_mem_nil
  | cons hp _ hes _ ih =>
    intro q hq
    rcases List.mem_cons.mp hq with rfl | hq
    · rw [hp]
      rfl
    · rcases List.mem_append.mp hq with hq | hq
      · exact hes.isSome q hq
      · exact ih q hq

/-- **A new element** is entered into the innermost array. -/
theorem Building.setElement (hb : Building g.obj none (f :: fs) (p :: ps) ns) (hnodup : ns.Nodup) :
    ∃ g', g.setElement (some p) f.done.length q = .ok g' ∧ g'.next = g.next ∧
      Building g'.obj (some q) (f :: fs) (p :: ps) ns ∧ p ∈ ns ∧
      ∀ k, k ≠ p → g'.obj k = g.obj k := by
  cases hb with
  | @cons _ _ _ _ _ es ms ns hp hlt hes hb =>
    obtain ⟨hnotMem, -⟩ := List.nodup_cons.mp hnodup
    have hput := put_at (e := Fault.outOfRange) (A := es.map some) (y := none) (x := some q)
      (C := List.replicate (f.elements - f.done.length - 1) none) (i := f.done.length)
      (by rw [List.length_map, hes.length_eq])
    refine ⟨{ g with obj := Function.update g.obj p (some ⟨.array, 0, [], es.map some ++
      some q :: List.replicate (f.elements - f.done.length - 1) none⟩) }, ?_, rfl, ?_,
      List.mem_cons_self, fun k hk => Function.update_of_ne hk _ _⟩
    · rw [Heap.setElement, Heap.deref, hp]
      simp only [Option.elim_some, ok_bind, check, if_true]
      rw [if_pos (by omega), Int.toNat_natCast, hput, ok_bind]
    · have hrest : ∀ k ∈ ms ++ ns, Function.update g.obj p (some ⟨.array, 0, [], es.map some ++
          some q :: List.replicate (f.elements - f.done.length - 1) none⟩) k = g.obj k := by
        intro k hk
        refine Function.update_of_ne ?_ _ _
        rintro rfl
        exact hnotMem hk
      exact .cons (Function.update_self _ _ _) hlt
        (hes.congr fun k hk => hrest k (List.mem_append_left _ hk))
        (hb.congr fun k hk => hrest k (List.mem_append_right _ hk))

end

end Hiredis

end BackendStudy
