import BackendStudy.Hiredis.Objects

/-!
# The objects that there are

Each object belongs to one reply, to one that a caller holds or to the one that is being read, and
there are no others (`BackendStudy.Hiredis.Memory`). This stays so when an object is allocated
(`BackendStudy.Hiredis.Memory.alloc`) and when a reply is freed
(`BackendStudy.Hiredis.Memory.freeReplyObject`), which leaves the other replies as they are.
-/

namespace BackendStudy

namespace Hiredis

open Slots Redis

/-- **The memory**: these objects, those of the replies that callers hold, and no others. -/
structure Memory (g : Heap) (ns : List ℕ) (es : List ℕ) (rs : List Reply) (ks : List ℕ) : Prop where
  held : HoldsAll g.obj es rs ks
  nodup : (ns ++ ks).Nodup
  isSome_iff : ∀ q, (g.obj q).isSome ↔ q ∈ ns ++ ks
  lt_next : ∀ q ∈ ns ++ ks, q < g.next

section

variable {g : Heap} {h : Objects} {p q k : ℕ} {e child : Option ℕ} {r : Reply} {rs rs' : List Reply}
  {es es' ps ns ms qs ks : List ℕ} {o o' : ReplyObj} {fs : List Frame} {f : Frame}

/-- There are no more objects than have been allocated. -/
theorem Memory.length_le (hm : Memory g ns es rs ks) : (ns ++ ks).length ≤ g.next := by
  have hsub : ns ++ ks ⊆ List.range g.next := fun q hq => List.mem_range.mpr (hm.lt_next q hq)
  simpa using (List.subperm_of_subset hm.nodup hsub).length_le

theorem Memory.perm (hm : Memory g ns es rs ks) (hperm : ms.Perm ns) : Memory g ms es rs ks where
  held := hm.held
  nodup := (hperm.append_right ks).nodup_iff.mpr hm.nodup
  isSome_iff := fun q => (hm.isSome_iff q).trans (hperm.append_right ks).mem_iff.symm
  lt_next := fun q hq => hm.lt_next q ((hperm.append_right ks).mem_iff.mp hq)

/-- The next object is none of those that there are. -/
theorem Memory.next_notMem (hm : Memory g ns es rs ks) : g.next ∉ ns ++ ks :=
  fun hq => lt_irrefl _ (hm.lt_next _ hq)

/-- **A new object.** -/
theorem Memory.alloc (hm : Memory g ns es rs ks) (o : ReplyObj) :
    Memory (g.alloc o).2 (g.next :: ns) es rs ks where
  held := hm.held.congr fun q hq => by
    refine Function.update_of_ne ?_ _ _
    rintro rfl
    exact hm.next_notMem (List.mem_append_right _ hq)
  nodup := List.nodup_cons.mpr ⟨hm.next_notMem, hm.nodup⟩
  isSome_iff := fun q => by
    rw [List.cons_append, List.mem_cons, ← hm.isSome_iff q]
    by_cases hq : q = g.next
    · simp [Heap.alloc, hq]
    · simp [Heap.alloc, hq]
  lt_next := fun q hq => by
    rcases List.mem_cons.mp hq with rfl | hq
    · exact Nat.lt_succ_self _
    · exact Nat.lt_succ_of_lt (hm.lt_next q hq)

/-- An object of the reply that is being read is written to. -/
theorem Memory.write {g' : Heap} (hm : Memory g ns es rs ks) (hp : p ∈ ns)
    (hsome : (g'.obj p).isSome) (heq : ∀ q, q ≠ p → g'.obj q = g.obj q)
    (hnext : g'.next = g.next) : Memory g' ns es rs ks where
  held := hm.held.congr fun q hq => by
    refine heq q ?_
    rintro rfl
    exact (List.nodup_append.mp hm.nodup).2.2 q hp q hq rfl
  nodup := hm.nodup
  isSome_iff := fun q => by
    by_cases hq : q = p
    · subst hq
      simp [hsome, hp]
    · rw [heq q hq, hm.isSome_iff q]
  lt_next := fun q hq => by
    rw [hnext]
    exact hm.lt_next q hq

/-- **A reply is freed**: all of its objects are, and the others stay. -/
theorem Memory.freeReplyObject (hm : Memory g (ns ++ ms) es rs ks) (he : Owns g.obj e ns) :
    ∃ g', g.freeReplyObject g.next e = .ok g' ∧ Memory g' ms es rs ks ∧
      ∀ q ∈ ms ++ ks, g'.obj q = g.obj q := by
  have hnodup : (ns ++ (ms ++ ks)).Nodup := by
    rw [← List.append_assoc]
    exact hm.nodup
  obtain ⟨hns, hrest, hapart⟩ := List.nodup_append.mp hnodup
  have hlen := hm.length_le
  rw [List.length_append, List.length_append] at hlen
  have hstay : ∀ q ∈ ms ++ ks, (g.free ns).obj q = g.obj q := fun q hq =>
    Heap.free_obj_of_notMem fun hin => hapart q hin q hq rfl
  refine ⟨g.free ns, he.freeReplyObject_eq hns (by omega),
    ⟨?_, hrest, fun q => ?_, fun q hq => ?_⟩, hstay⟩
  · exact hm.held.congr fun q hq => hstay q (List.mem_append_right _ hq)
  · by_cases hin : q ∈ ns
    · have hout : q ∉ ms ++ ks := fun hq => hapart q hin q hq rfl
      simp [Heap.free, hin, hout]
    · rw [Heap.free_obj_of_notMem hin, hm.isSome_iff, List.append_assoc, List.mem_append]
      exact or_iff_right hin
  · exact hm.lt_next q (by rw [List.append_assoc]; exact List.mem_append_right _ hq)

/-- A caller is given a reply. -/
theorem Memory.give (hm : Memory g (ns ++ ms) es rs ks) (hr : Holds g.obj p r ns) :
    Memory g ms (es ++ [p]) (rs ++ [r]) (ks ++ ns) := by
  have hperm : (ms ++ (ks ++ ns)).Perm (ns ++ ms ++ ks) := by
    rw [List.append_assoc, ← List.append_assoc ms]
    exact List.perm_append_comm
  exact ⟨hm.held.snoc hr, hperm.nodup_iff.mpr hm.nodup,
    fun q => (hm.isSome_iff q).trans hperm.mem_iff.symm,
    fun q hq => hm.lt_next q (hperm.mem_iff.mp hq)⟩

theorem HoldsAll.split (hrs : HoldsAll h (es ++ p :: es') rs qs) :
    ∃ rs₁ r rs₂ ks₁ ns ks₂, rs = rs₁ ++ r :: rs₂ ∧ qs = ks₁ ++ (ns ++ ks₂) ∧
      HoldsAll h es rs₁ ks₁ ∧ Holds h p r ns ∧ HoldsAll h es' rs₂ ks₂ ∧
      rs₁.length = es.length := by
  induction es generalizing rs qs with
  | nil =>
    cases hrs with
    | @cons _ r ns _ rs ms hr hrs => exact ⟨[], r, rs, [], ns, ms, rfl, rfl, .nil, hr, hrs, rfl⟩
  | cons e es ih =>
    cases hrs with
    | @cons _ r ns _ rs ms hr hrs =>
      obtain ⟨rs₁, r', rs₂, ks₁, ns', ks₂, rfl, rfl, h₁, hr', h₂, hlen⟩ := ih hrs
      exact ⟨r :: rs₁, r', rs₂, ns ++ ks₁, ns', ks₂, rfl, by simp, .cons hr h₁, hr', h₂,
        by simp [hlen]⟩

theorem HoldsAll.append (hrs : HoldsAll h es rs ks) (hrs' : HoldsAll h es' rs' ms) :
    HoldsAll h (es ++ es') (rs ++ rs') (ks ++ ms) := by
  induction es generalizing rs ks with
  | nil =>
    cases hrs
    exact hrs'
  | cons e es ih =>
    cases hrs with
    | cons hr hrs =>
      rw [List.append_assoc]
      exact .cons hr (ih hrs)

/-- A caller gives up a reply, so that it can be freed. -/
theorem Memory.take (hm : Memory g ns (es ++ p :: es') rs ks) :
    ∃ rs₁ r rs₂ qs ks', rs = rs₁ ++ r :: rs₂ ∧ rs₁.length = es.length ∧ Holds g.obj p r qs ∧
      Memory g (qs ++ ns) (es ++ es') (rs₁ ++ rs₂) ks' := by
  obtain ⟨rs₁, r, rs₂, ks₁, qs, ks₂, rfl, rfl, h₁, hr, h₂, hlen⟩ := hm.held.split
  have hperm : (qs ++ ns ++ (ks₁ ++ ks₂)).Perm (ns ++ (ks₁ ++ (qs ++ ks₂))) := by
    rw [List.append_assoc]
    exact (List.perm_append_comm_assoc _ _ _).trans
      ((List.perm_append_comm_assoc _ _ _).append_left ns)
  exact ⟨rs₁, r, rs₂, qs, ks₁ ++ ks₂, rfl, hlen, hr, h₁.append h₂, hperm.nodup_iff.mpr hm.nodup,
    fun q => (hm.isSome_iff q).trans hperm.mem_iff.symm,
    fun q hq => hm.lt_next q (hperm.mem_iff.mp hq)⟩

/-- **A caller frees a reply** that it holds. -/
theorem Memory.freeHeld (hm : Memory g ns (es ++ p :: es') rs ks) :
    ∃ g' rs₁ v rs₂ ks', g.freeReplyObject g.next (some p) = .ok g' ∧ rs = rs₁ ++ v :: rs₂ ∧
      rs₁.length = es.length ∧ Memory g' ns (es ++ es') (rs₁ ++ rs₂) ks' ∧
      ∀ q ∈ ns, g'.obj q = g.obj q := by
  obtain ⟨rs₁, v, rs₂, qs, ks', hrs, hlen, hv, hm'⟩ := hm.take
  obtain ⟨g', hfree, hmem, hstay⟩ := hm'.freeReplyObject hv.owns
  exact ⟨g', rs₁, v, rs₂, ks', hfree, hrs, hlen, hmem,
    fun q hq => hstay q (List.mem_append_left _ hq)⟩

end

end Hiredis

end BackendStudy
