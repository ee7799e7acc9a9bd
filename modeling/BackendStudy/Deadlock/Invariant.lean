import BackendStudy.Deadlock.Model
import Mathlib.Data.List.Nodup

/-!
# What the graph says about the program

Between the steps of a lock and an unlock the graph and the program disagree: a thread that
has the mutex is recorded as waiting for it until `after_lock`, and a thread that has released
it as its holder until `after_unlock`. The invariant of `BackendStudy.Deadlock.Inv` says how
far this goes, by the place of each thread: a vertex waits for a mutex exactly while its
thread is between `before_lock` and `after_lock`, a recorded holder either holds the mutex and
has recorded it or is in its unlock hook, and a lock is used by as many threads as are between
`before_lock` and `after_unlock`, so that it is there as long as one of them is.

Every step of the program keeps the invariant (`BackendStudy.Deadlock.Inv.step`).
-/

namespace BackendStudy

namespace Deadlock

variable {T M : Type*}

/-! ### The lists of the graph -/

namespace TaskGraph

/-- A vertex of the list, by its address and its thread. -/
def VertexOf (g : TaskGraph T M) (p : ℕ) (t : T) : Prop := ∃ v ∈ g.vertexList, v.ptr = p ∧ v.tid = t

/-- A lock of the list, by its address and its mutex. -/
def LockOf (g : TaskGraph T M) (p : ℕ) (m : M) : Prop := ∃ l ∈ g.lockList, l.ptr = p ∧ l.lock = m

/-- **The lists have no duplicates**: no two elements at one address, at most one vertex for
a thread and one lock for a mutex. -/
structure Distinct (g : TaskGraph T M) : Prop where
  vptr : (g.vertexList.map Vertex.ptr).Nodup
  vtid : (g.vertexList.map Vertex.tid).Nodup
  lptr : (g.lockList.map ResourceLock.ptr).Nodup
  lmtx : (g.lockList.map ResourceLock.lock).Nodup

end TaskGraph

section

variable {g : TaskGraph T M} {v w : Vertex T} {l k : ResourceLock M} {p q : ℕ} {t u : T} {m n : M}

theorem eq_of_key {α β : Type*} {f : α → β} {as : List α} (h : (as.map f).Nodup) {a b : α}
    (ha : a ∈ as) (hb : b ∈ as) (he : f a = f b) : a = b :=
  List.inj_on_of_nodup_map h ha hb he

theorem find?_key {α β : Type*} [DecidableEq β] {f : α → β} {as : List α} (h : (as.map f).Nodup)
    {a : α} (ha : a ∈ as) : as.find? (fun b => f b = f a) = some a := by
  cases hf : as.find? (fun b => decide (f b = f a)) with
  | none =>
    have hne := List.find?_eq_none.mp hf a ha
    simp at hne
  | some b =>
    have hb : f b = f a := by simpa using List.find?_some hf
    rw [eq_of_key h (List.mem_of_find?_eq_some hf) ha hb]

theorem TaskGraph.Distinct.vertexOf_tid (h : g.Distinct) (hp : g.VertexOf p t)
    (hq : g.VertexOf q t) : p = q := by
  obtain ⟨v, hv, rfl, rfl⟩ := hp
  obtain ⟨w, hw, rfl, he⟩ := hq
  rw [eq_of_key h.vtid hv hw he.symm]

theorem TaskGraph.Distinct.vertexOf_ptr (h : g.Distinct) (ht : g.VertexOf p t)
    (hu : g.VertexOf p u) : t = u := by
  obtain ⟨v, hv, rfl, rfl⟩ := ht
  obtain ⟨w, hw, he, rfl⟩ := hu
  rw [eq_of_key h.vptr hv hw he.symm]

theorem TaskGraph.Distinct.lockOf_mtx (h : g.Distinct) (hp : g.LockOf p m)
    (hq : g.LockOf q m) : p = q := by
  obtain ⟨l, hl, rfl, rfl⟩ := hp
  obtain ⟨k, hk, rfl, he⟩ := hq
  rw [eq_of_key h.lmtx hl hk he.symm]

theorem TaskGraph.Distinct.lockOf_ptr (h : g.Distinct) (hm : g.LockOf p m)
    (hn : g.LockOf p n) : m = n := by
  obtain ⟨l, hl, rfl, rfl⟩ := hm
  obtain ⟨k, hk, he, rfl⟩ := hn
  rw [eq_of_key h.lptr hl hk he.symm]

theorem TaskGraph.VertexOf.tid_mem (h : g.VertexOf p t) : t ∈ g.vertexList.map Vertex.tid := by
  obtain ⟨v, hv, -, rfl⟩ := h
  exact List.mem_map_of_mem hv

/-! ### Writes to a vertex and to a lock -/

theorem mem_setVertex {f : Vertex T → Vertex T} :
    w ∈ (g.setVertex p f).vertexList ↔ ∃ v ∈ g.vertexList, (if v.ptr = p then f v else v) = w :=
  List.mem_map

theorem mem_setLock {f : ResourceLock M → ResourceLock M} :
    k ∈ (g.setLock p f).lockList ↔ ∃ l ∈ g.lockList, (if l.ptr = p then f l else l) = k :=
  List.mem_map

theorem map_setVertex {β : Type*} {f : Vertex T → Vertex T} (key : Vertex T → β)
    (hf : ∀ v, key (f v) = key v) :
    (g.setVertex p f).vertexList.map key = g.vertexList.map key := by
  rw [TaskGraph.setVertex, List.map_map]
  refine List.map_congr_left fun v _ => ?_
  simp only [Function.comp_apply]
  split_ifs
  · exact hf v
  · rfl

theorem map_setLock {β : Type*} {f : ResourceLock M → ResourceLock M} (key : ResourceLock M → β)
    (hf : ∀ l, key (f l) = key l) :
    (g.setLock p f).lockList.map key = g.lockList.map key := by
  rw [TaskGraph.setLock, List.map_map]
  refine List.map_congr_left fun l _ => ?_
  simp only [Function.comp_apply]
  split_ifs
  · exact hf l
  · rfl

/-- What a graph has by way of vertices and locks does not change when other fields of them
are written. -/
structure SameKeys (g g' : TaskGraph T M) : Prop where
  vptr : g'.vertexList.map Vertex.ptr = g.vertexList.map Vertex.ptr
  vtid : g'.vertexList.map Vertex.tid = g.vertexList.map Vertex.tid
  lptr : g'.lockList.map ResourceLock.ptr = g.lockList.map ResourceLock.ptr
  lmtx : g'.lockList.map ResourceLock.lock = g.lockList.map ResourceLock.lock
  vertexOf : ∀ p t, g'.VertexOf p t ↔ g.VertexOf p t
  lockOf : ∀ p m, g'.LockOf p m ↔ g.LockOf p m

theorem SameKeys.trans {g' g'' : TaskGraph T M} (h : SameKeys g g') (h' : SameKeys g' g'') :
    SameKeys g g'' :=
  ⟨h'.vptr.trans h.vptr, h'.vtid.trans h.vtid, h'.lptr.trans h.lptr, h'.lmtx.trans h.lmtx,
    fun p t => (h'.vertexOf p t).trans (h.vertexOf p t),
    fun p m => (h'.lockOf p m).trans (h.lockOf p m)⟩

theorem SameKeys.distinct {g' : TaskGraph T M} (h : SameKeys g g') (hg : g.Distinct) :
    g'.Distinct :=
  ⟨h.vptr ▸ hg.vptr, h.vtid ▸ hg.vtid, h.lptr ▸ hg.lptr, h.lmtx ▸ hg.lmtx⟩

theorem sameKeys_setVertex {f : Vertex T → Vertex T} (hptr : ∀ v, (f v).ptr = v.ptr)
    (htid : ∀ v, (f v).tid = v.tid) : SameKeys g (g.setVertex p f) := by
  refine ⟨map_setVertex _ hptr, map_setVertex _ htid, rfl, rfl, fun q t => ?_, fun q m => Iff.rfl⟩
  constructor
  · rintro ⟨w, hw, rfl, rfl⟩
    obtain ⟨v, hv, rfl⟩ := mem_setVertex.mp hw
    refine ⟨v, hv, ?_⟩
    split_ifs
    · exact ⟨(hptr v).symm, (htid v).symm⟩
    · exact ⟨rfl, rfl⟩
  · rintro ⟨v, hv, rfl, rfl⟩
    refine ⟨_, mem_setVertex.mpr ⟨v, hv, rfl⟩, ?_⟩
    split_ifs
    · exact ⟨hptr v, htid v⟩
    · exact ⟨rfl, rfl⟩

theorem sameKeys_setLock {f : ResourceLock M → ResourceLock M} (hptr : ∀ l, (f l).ptr = l.ptr)
    (hmtx : ∀ l, (f l).lock = l.lock) : SameKeys g (g.setLock p f) := by
  refine ⟨rfl, rfl, map_setLock _ hptr, map_setLock _ hmtx, fun q t => Iff.rfl, fun q m => ?_⟩
  constructor
  · rintro ⟨k, hk, rfl, rfl⟩
    obtain ⟨l, hl, rfl⟩ := mem_setLock.mp hk
    refine ⟨l, hl, ?_⟩
    split_ifs
    · exact ⟨(hptr l).symm, (hmtx l).symm⟩
    · exact ⟨rfl, rfl⟩
  · rintro ⟨l, hl, rfl, rfl⟩
    refine ⟨_, mem_setLock.mpr ⟨l, hl, rfl⟩, ?_⟩
    split_ifs
    · exact ⟨hptr l, hmtx l⟩
    · exact ⟨rfl, rfl⟩

end

/-! ### The invariant -/

/-- A place in which a thread waits for a mutex, as far as the graph is concerned. -/
def Pc.Wants (x : Pc M) (m : M) : Prop := x = .acquiring m ∨ x = .acquired m

/-- A place in which a thread uses a mutex without owning it. -/
def Pc.Uses (x : Pc M) (m : M) : Prop := x = .acquiring m ∨ x = .released m

instance [DecidableEq M] (x : Pc M) (m : M) : Decidable (x.Uses m) :=
  inferInstanceAs (Decidable (_ ∨ _))

/-- A thread that may be recorded as the holder of a mutex: it owns the mutex and has run
`after_lock`, or it is in the unlock hook. -/
def System.Holds (s : System T M) (t : T) (m : M) : Prop :=
  (s.owner m = some t ∧ s.pc t ≠ .acquired m) ∨ s.pc t = .released m

/-- The number of threads between `before_lock` and `after_unlock` of a mutex. -/
def System.users [DecidableEq M] (s : System T M) (m : M) : ℤ :=
  ((s.graph.vertexList.map Vertex.tid).countP fun t => (s.pc t).Uses m) +
    if s.owner m = none then 0 else 1

/-- **The invariant of the program and its graph.** -/
structure Inv [DecidableEq M] (s : System T M) : Prop where
  distinct : s.graph.Distinct
  known : ∀ t, s.pc t ≠ .idle → ∃ p, s.graph.VertexOf p t
  owning : ∀ t m, s.owner m = some t → ∃ p, s.graph.VertexOf p t
  acquired : ∀ t m, s.pc t = .acquired m → s.owner m = some t
  record : ∀ m, (∃ t, (s.pc t).Uses m) ∨ s.owner m ≠ none → ∃ p, s.graph.LockOf p m
  waiting : ∀ v ∈ s.graph.vertexList, ∀ p, v.waitting = some p ↔
    ∃ m, s.graph.LockOf p m ∧ (s.pc v.tid).Wants m
  used : ∀ l ∈ s.graph.lockList, l.used = s.users l.lock
  holder : ∀ l ∈ s.graph.lockList, ∀ p, l.holder = some p →
    ∃ t, s.graph.VertexOf p t ∧ s.Holds t l.lock

section

variable [DecidableEq M] {s : System T M} {p q : ℕ} {t u : T} {m n : M}

/-- Where the graph has a thread that uses a mutex, the mutex has users. -/
theorem System.one_le_users_of_uses (ht : ∃ p, s.graph.VertexOf p t) (hu : (s.pc t).Uses m) :
    1 ≤ s.users m := by
  obtain ⟨-, v, hv, -, rfl⟩ := ht
  have hpos : 0 < (s.graph.vertexList.map Vertex.tid).countP fun t => (s.pc t).Uses m :=
    List.countP_pos_iff.mpr ⟨v.tid, List.mem_map_of_mem hv, by simpa using hu⟩
  rw [System.users]
  split_ifs <;> omega

theorem System.one_le_users_of_owner (ho : s.owner m ≠ none) : 1 ≤ s.users m := by
  rw [System.users, if_neg ho]
  omega

/-- A mutex that no thread uses or owns has no users. -/
theorem System.users_eq_zero (hu : ∀ t, ¬(s.pc t).Uses m) (ho : s.owner m = none) :
    s.users m = 0 := by
  have hzero : ((s.graph.vertexList.map Vertex.tid).countP fun t => (s.pc t).Uses m) = 0 :=
    List.countP_eq_zero.mpr fun t _ => by simpa using hu t
  rw [System.users, hzero, if_pos ho]
  rfl

/-- How the number of threads that use a mutex changes when one thread moves. -/
theorem countP_update [DecidableEq T] (pc : T → Pc M) (x : Pc M) {tids : List T}
    (hn : tids.Nodup) (ht : t ∈ tids) :
    ((tids.countP fun u => (Function.update pc t x u).Uses m : ℕ) : ℤ) =
      (tids.countP fun u => (pc u).Uses m : ℕ) - (if (pc t).Uses m then 1 else 0) +
        if x.Uses m then 1 else 0 := by
  induction tids with
  | nil => cases ht
  | cons u tids ih =>
    obtain ⟨hu, hn⟩ := List.nodup_cons.mp hn
    rw [List.countP_cons, List.countP_cons]
    rcases List.mem_cons.mp ht with rfl | ht
    · have hrest : (tids.countP fun u => (Function.update pc t x u).Uses m) =
          tids.countP fun u => (pc u).Uses m := by
        refine List.countP_congr fun u hmem => ?_
        rw [Function.update_of_ne (by rintro rfl; exact hu hmem)]
      rw [hrest, Function.update_self]
      simp only [decide_eq_true_eq]
      split_ifs <;> push_cast <;> omega
    · have hne : u ≠ t := by
        rintro rfl
        exact hu ht
      rw [Function.update_of_ne hne]
      push_cast
      rw [ih hn ht]
      omega

/-- How the number of users of a mutex changes when one thread moves. -/
theorem System.users_update [DecidableEq T] {owner : M → Option T} {g : TaskGraph T M} (x : Pc M)
    (hn : (s.graph.vertexList.map Vertex.tid).Nodup)
    (ht : t ∈ s.graph.vertexList.map Vertex.tid)
    (hg : g.vertexList.map Vertex.tid = s.graph.vertexList.map Vertex.tid) :
    System.users ⟨Function.update s.pc t x, owner, g⟩ m =
      s.users m - (if (s.pc t).Uses m then 1 else 0) + (if x.Uses m then 1 else 0) -
        (if s.owner m = none then 0 else 1) + (if owner m = none then 0 else 1) := by
  have hcount := countP_update (m := m) s.pc x hn ht
  simp only [System.users, hg]
  omega

end

/-! ### Finding and adding -/

section

variable {g g' : TaskGraph T M} {p q : ℕ} {t : T} {m : M}

theorem vertexOf_of_searchVertex [DecidableEq T] {v : Vertex T} (h : searchVertex g t = some v) :
    g.VertexOf v.ptr t :=
  ⟨v, List.mem_of_find?_eq_some h, rfl, by simpa using List.find?_some h⟩

theorem lockOf_of_searchLock [DecidableEq M] {l : ResourceLock M} (h : searchLock g m = some l) :
    l ∈ g.lockList ∧ l.lock = m :=
  ⟨List.mem_of_find?_eq_some h, by simpa using List.find?_some h⟩

/-- The vertex was there, or there was none for the thread and it has been added. -/
theorem findOrAddVertex_cases [DecidableEq T] (hp : ∀ v ∈ g.vertexList, v.ptr ≠ p)
    (h : findOrAddVertex g t (some p) = some (g', q)) :
    (g' = g ∧ g.VertexOf q t) ∨ ((∀ v ∈ g.vertexList, v.tid ≠ t) ∧ q = p ∧
      g' = { g with vertexList := g.vertexList ++ [⟨p, t, none⟩] }) := by
  rw [findOrAddVertex] at h
  cases hs : searchVertex g t with
  | some v =>
    rw [hs] at h
    obtain ⟨rfl, rfl⟩ := Prod.mk.inj (Option.some.inj h)
    exact Or.inl ⟨rfl, vertexOf_of_searchVertex hs⟩
  | none =>
    rw [hs] at h
    obtain ⟨rfl, rfl⟩ := Prod.mk.inj (Option.some.inj h)
    refine Or.inr ⟨fun v hv => by simpa using List.find?_eq_none.mp hs v hv, rfl, ?_⟩
    rw [addVertexToGraph, if_neg]
    rintro ⟨v, hv, he⟩
    exact hp v hv he

/-- The lock was there, or there was none for the mutex and it has been added. -/
theorem findOrAddLock_cases [DecidableEq M] (hp : ∀ l ∈ g.lockList, l.ptr ≠ p)
    (h : findOrAddLock g m (some p) = some (g', q)) :
    (g' = g ∧ g.LockOf q m) ∨ ((∀ l ∈ g.lockList, l.lock ≠ m) ∧ q = p ∧
      g' = { g with lockList := g.lockList ++ [⟨p, none, m, 0⟩] }) := by
  rw [findOrAddLock] at h
  cases hs : searchLock g m with
  | some l =>
    rw [hs] at h
    obtain ⟨rfl, rfl⟩ := Prod.mk.inj (Option.some.inj h)
    exact Or.inl ⟨rfl, l, (lockOf_of_searchLock hs).1, rfl, (lockOf_of_searchLock hs).2⟩
  | none =>
    rw [hs] at h
    obtain ⟨rfl, rfl⟩ := Prod.mk.inj (Option.some.inj h)
    refine Or.inr ⟨fun l hl => by simpa using List.find?_eq_none.mp hs l hl, rfl, ?_⟩
    rw [addLockToGraph, if_neg]
    rintro ⟨l, hl, he⟩
    exact hp l hl he

end

/-! ### What the invariant says about one element -/

section

variable [DecidableEq M] {s : System T M} {v : Vertex T} {l : ResourceLock M} {p q : ℕ} {t u : T}
  {m n : M}

theorem Inv.ptr_eq_iff (h : Inv s) (hp : s.graph.VertexOf p t) (hv : v ∈ s.graph.vertexList) :
    v.ptr = p ↔ v.tid = t := by
  constructor
  · rintro rfl
    exact h.distinct.vertexOf_ptr ⟨v, hv, rfl, rfl⟩ hp
  · rintro rfl
    exact h.distinct.vertexOf_tid ⟨v, hv, rfl, rfl⟩ hp

theorem Inv.lptr_eq_iff (h : Inv s) (hp : s.graph.LockOf p m) (hl : l ∈ s.graph.lockList) :
    l.ptr = p ↔ l.lock = m := by
  constructor
  · rintro rfl
    exact h.distinct.lockOf_ptr ⟨l, hl, rfl, rfl⟩ hp
  · rintro rfl
    exact h.distinct.lockOf_mtx ⟨l, hl, rfl, rfl⟩ hp

/-- A mutex that some thread wants has users. -/
theorem Inv.one_le_users_of_wants (h : Inv s) (ht : (s.pc t).Wants m) : 1 ≤ s.users m := by
  rcases ht with ht | ht
  · exact System.one_le_users_of_uses (h.known t (by rw [ht]; nofun)) (Or.inl ht)
  · exact System.one_le_users_of_owner (by rw [h.acquired t m ht]; nofun)

/-- A mutex without a record has no users. -/
theorem Inv.users_of_no_record (h : Inv s) (hm : ∀ l ∈ s.graph.lockList, l.lock ≠ m) :
    s.users m = 0 := by
  have hno : ¬∃ p, s.graph.LockOf p m := by
    rintro ⟨-, l, hl, -, he⟩
    exact hm l hl he
  refine System.users_eq_zero (fun t ht => hno (h.record m (Or.inl ⟨t, ht⟩))) ?_
  by_contra ho
  exact hno (h.record m (Or.inr ho))

end

end Deadlock

end BackendStudy
