import BackendStudy.Deadlock.Invariant

/-!
# The steps of the hooks and the graph

Every step of the program keeps the invariant of the graph (`BackendStudy.Deadlock.Inv.step`).
`before_lock` is taken apart into the new vertex, the new lock and the new relation; the other
steps are one change of the graph or of the program each.

An owner that has run `after_lock` is not always the recorded holder: `after_unlock` clears
the holder whoever it is. It stays recorded in runs in which `after_unlock` only finds a mutex
that is free or whose new owner has not come to `after_lock` yet
(`BackendStudy.Deadlock.Recorded.step`).
-/

namespace BackendStudy

namespace Deadlock

variable {T M : Type*} {s s' : System T M} {p q : ℕ} {t u : T} {m n : M}

/-- Every owner that has run `after_lock` is the recorded holder. -/
def Recorded (s : System T M) : Prop :=
  ∀ l ∈ s.graph.lockList, ∀ t, s.owner l.lock = some t → s.pc t ≠ .acquired l.lock →
    ∃ p, s.graph.VertexOf p t ∧ l.holder = some p

/-! ### The elements of the graph -/

theorem vertexOf_append {g : TaskGraph T M} {v : Vertex T} :
    ({ g with vertexList := g.vertexList ++ [v] } : TaskGraph T M).VertexOf q u ↔
      g.VertexOf q u ∨ (v.ptr = q ∧ v.tid = u) := by
  simp only [TaskGraph.VertexOf, List.mem_append, List.mem_singleton]
  constructor
  · rintro ⟨w, hw | rfl, h⟩
    · exact Or.inl ⟨w, hw, h⟩
    · exact Or.inr h
  · rintro (⟨w, hw, h⟩ | h)
    · exact ⟨w, Or.inl hw, h⟩
    · exact ⟨v, Or.inr rfl, h⟩

theorem lockOf_append {g : TaskGraph T M} {l : ResourceLock M} :
    ({ g with lockList := g.lockList ++ [l] } : TaskGraph T M).LockOf q n ↔
      g.LockOf q n ∨ (l.ptr = q ∧ l.lock = n) := by
  simp only [TaskGraph.LockOf, List.mem_append, List.mem_singleton]
  constructor
  · rintro ⟨w, hw | rfl, h⟩
    · exact Or.inl ⟨w, hw, h⟩
    · exact Or.inr h
  · rintro (⟨w, hw, h⟩ | h)
    · exact ⟨w, Or.inl hw, h⟩
    · exact ⟨l, Or.inr rfl, h⟩

theorem nodup_map_append {α β : Type*} {f : α → β} {as : List α} {a : α} (h : (as.map f).Nodup)
    (ha : ∀ b ∈ as, f b ≠ f a) : ((as ++ [a]).map f).Nodup := by
  rw [List.map_append, List.map_singleton, List.nodup_append]
  refine ⟨h, List.nodup_singleton _, ?_⟩
  intro x hx y hy
  obtain ⟨b, hb, rfl⟩ := List.mem_map.mp hx
  obtain rfl := List.mem_singleton.mp hy
  exact ha b hb

/-- A new vertex keeps the invariant. -/
theorem Inv.addVertex [DecidableEq M] (h : Inv s) (hp : ∀ v ∈ s.graph.vertexList, v.ptr ≠ p)
    (ht : ∀ v ∈ s.graph.vertexList, v.tid ≠ t) (hpc : s.pc t = .idle) :
    Inv { s with graph :=
      { s.graph with vertexList := s.graph.vertexList ++ [⟨p, t, none⟩] } } := by
  constructor
  · exact ⟨nodup_map_append h.distinct.vptr hp, nodup_map_append h.distinct.vtid ht,
      h.distinct.lptr, h.distinct.lmtx⟩
  · intro u hu
    obtain ⟨q, hq⟩ := h.known u hu
    exact ⟨q, vertexOf_append.mpr (Or.inl hq)⟩
  · intro u n hu
    obtain ⟨q, hq⟩ := h.owning u n hu
    exact ⟨q, vertexOf_append.mpr (Or.inl hq)⟩
  · exact h.acquired
  · exact h.record
  · intro v hv q
    rcases List.mem_append.mp hv with hv | hv
    · exact h.waiting v hv q
    · obtain rfl := List.mem_singleton.mp hv
      simp [hpc, Pc.Wants]
  · intro l hl
    rw [h.used l hl]
    simp [System.users, hpc, Pc.Uses]
  · intro l hl q hq
    obtain ⟨u, hu, hold⟩ := h.holder l hl q hq
    exact ⟨u, vertexOf_append.mpr (Or.inl hu), hold⟩

/-- A new lock keeps the invariant. -/
theorem Inv.addLock [DecidableEq M] (h : Inv s) (hp : ∀ l ∈ s.graph.lockList, l.ptr ≠ p)
    (hm : ∀ l ∈ s.graph.lockList, l.lock ≠ m) :
    Inv { s with graph := { s.graph with lockList := s.graph.lockList ++ [⟨p, none, m, 0⟩] } } := by
  have husers := h.users_of_no_record hm
  constructor
  · exact ⟨h.distinct.vptr, h.distinct.vtid, nodup_map_append h.distinct.lptr hp,
      nodup_map_append h.distinct.lmtx hm⟩
  · exact h.known
  · exact h.owning
  · exact h.acquired
  · intro n hn
    obtain ⟨q, hq⟩ := h.record n hn
    exact ⟨q, lockOf_append.mpr (Or.inl hq)⟩
  · intro v hv q
    rw [h.waiting v hv q]
    refine exists_congr fun n => and_congr_left fun hwants => ?_
    -- no thread wants the mutex that the new lock is for
    refine ⟨fun hq => lockOf_append.mpr (Or.inl hq), fun hq => ?_⟩
    rcases lockOf_append.mp hq with hq | ⟨-, rfl⟩
    · exact hq
    · have := h.one_le_users_of_wants hwants
      simp only at this
      omega
  · intro l hl
    rcases List.mem_append.mp hl with hl | hl
    · exact h.used l hl
    · obtain rfl := List.mem_singleton.mp hl
      exact husers.symm
  · intro l hl q hq
    rcases List.mem_append.mp hl with hl | hl
    · exact h.holder l hl q hq
    · obtain rfl := List.mem_singleton.mp hl
      cases hq

theorem Pc.Uses.ne_idle {x : Pc M} (h : x.Uses n) : x ≠ .idle := by
  rintro rfl
  simp [Pc.Uses] at h

/-- A lock that no thread uses can go. -/
theorem Inv.removeLock [DecidableEq M] (h : Inv s) (hp : s.graph.LockOf p m) (hm : s.users m = 0) :
    Inv { s with
      graph := { s.graph with lockList := s.graph.lockList.filter (·.ptr ≠ p) } } := by
  have hsub : (s.graph.lockList.filter (·.ptr ≠ p)).Sublist s.graph.lockList :=
    List.filter_sublist
  -- the records of the other locks are those that they were
  have hlockOf : ∀ r n, n ≠ m → ((⟨s.graph.vertexList, s.graph.lockList.filter (·.ptr ≠ p)⟩ :
      TaskGraph T M).LockOf r n ↔ s.graph.LockOf r n) := by
    intro r n hnm
    simp only [TaskGraph.LockOf, List.mem_filter, decide_eq_true_eq]
    refine exists_congr fun l => ⟨fun hl => ⟨hl.1.1, hl.2⟩, fun hl => ⟨⟨hl.1, ?_⟩, hl.2⟩⟩
    rw [Ne, h.lptr_eq_iff hp hl.1, hl.2.2]
    exact hnm
  constructor
  · exact ⟨h.distinct.vptr, h.distinct.vtid, h.distinct.lptr.sublist (hsub.map _),
      h.distinct.lmtx.sublist (hsub.map _)⟩
  · exact h.known
  · exact h.owning
  · exact h.acquired
  -- a lock that is in use is not the removed one, which nobody uses
  · intro n hn
    have hnm : n ≠ m := by
      rintro rfl
      have husers : 1 ≤ s.users n := by
        rcases hn with ⟨u, hu⟩ | ho
        · exact System.one_le_users_of_uses (h.known u (Pc.Uses.ne_idle hu)) hu
        · exact System.one_le_users_of_owner ho
      omega
    obtain ⟨r, hr⟩ := h.record n hn
    exact ⟨r, (hlockOf r n hnm).mpr hr⟩
  · intro v hv r
    rw [h.waiting v hv r]
    refine exists_congr fun n => and_congr_left fun hwants => (hlockOf r n ?_).symm
    rintro rfl
    have := h.one_le_users_of_wants hwants
    omega
  · intro l hl
    exact h.used l (hsub.subset hl)
  · intro l hl
    exact h.holder l (hsub.subset hl)

/-! ### The steps -/

theorem sameKeys_addRelationBeforeLock {g : TaskGraph T M} :
    SameKeys g (addRelationBeforeLock g q p) :=
  (sameKeys_setVertex (f := fun v => { v with waitting := some p }) (fun _ => rfl)
    fun _ => rfl).trans
    (sameKeys_setLock (f := fun l => { l with used := l.used + 1 }) (fun _ => rfl) fun _ => rfl)

theorem sameKeys_becomeHolderAfterLock {g : TaskGraph T M} :
    SameKeys g (becomeHolderAfterLock g q p) :=
  (sameKeys_setLock (f := fun l => { l with holder := some q }) (fun _ => rfl) fun _ => rfl).trans
    (sameKeys_setVertex (f := fun v => { v with waitting := none }) (fun _ => rfl) fun _ => rfl)

theorem sameKeys_dereferenceAfterUnlock {g : TaskGraph T M} :
    SameKeys g (dereferenceAfterUnlock g p) :=
  sameKeys_setLock (fun _ => rfl) fun _ => rfl

section

variable [DecidableEq T] {pc : T → Pc M} {x : Pc M} {g : TaskGraph T M}

theorem uses_of_update (hx : ¬x.Uses n) (h : ∃ u, (Function.update pc t x u).Uses n) :
    ∃ u, (pc u).Uses n := by
  obtain ⟨u, hu⟩ := h
  refine ⟨u, ?_⟩
  by_cases hut : u = t
  · rw [hut, Function.update_self] at hu
    exact absurd hu hx
  · rwa [Function.update_of_ne hut] at hu

theorem known_update (hk : ∀ u, pc u ≠ .idle → ∃ p, g.VertexOf p u) (hq : g.VertexOf q t) (u : T)
    (hu : Function.update pc t x u ≠ .idle) : ∃ p, g.VertexOf p u := by
  by_cases hut : u = t
  · exact ⟨q, hut ▸ hq⟩
  · rw [Function.update_of_ne hut] at hu
    exact hk u hu

/-- A thread that is not where the moving thread goes has not moved. -/
theorem pc_of_update {y : Pc M} (hx : x ≠ y) (hu : Function.update pc t x u = y) : pc u = y := by
  by_cases hut : u = t
  · rw [hut, Function.update_self] at hu
    exact absurd hu hx
  · rwa [Function.update_of_ne hut] at hu

/-- A thread that moves between places where it wants the same leaves the wants as they are. -/
theorem wants_update (hx : x.Wants n ↔ (pc t).Wants n) :
    (Function.update pc t x u).Wants n ↔ (pc u).Wants n := by
  by_cases hut : u = t
  · rw [hut, Function.update_self]
    exact hx
  · rw [Function.update_of_ne hut]

theorem acquired_update {owner : M → Option T} (ha : ∀ u n, pc u = .acquired n → owner n = some u)
    (hx : ∀ n, x ≠ .acquired n) (u : T) (n : M) (hu : Function.update pc t x u = .acquired n) :
    owner n = some u :=
  ha u n (pc_of_update (hx n) hu)

/-- A thread that was not between the acquire and `after_lock` is the one that moves, or is where
it was. -/
theorem ne_acquired_of_update (ht : pc t ≠ .acquired n)
    (hu : Function.update pc t x u ≠ .acquired n) : pc u ≠ .acquired n := by
  by_cases hut : u = t
  · rwa [hut]
  · rwa [Function.update_of_ne hut] at hu

end

theorem afterUnlock_eq [DecidableEq M] {g g' : TaskGraph T M} (h : afterUnlock g m = some g') :
    ∃ l ∈ g.lockList, l.lock = m ∧ g' =
      if l.used - 1 = 0 then
        { dereferenceAfterUnlock g l.ptr with
          lockList := (dereferenceAfterUnlock g l.ptr).lockList.filter (·.ptr ≠ l.ptr) }
      else dereferenceAfterUnlock g l.ptr := by
  rw [afterUnlock] at h
  split at h
  · cases h
  · rename_i l hl
    refine ⟨l, (lockOf_of_searchLock hl).1, (lockOf_of_searchLock hl).2, ?_⟩
    split_ifs at h with hused
    · rw [if_pos hused]
      exact (Option.some.inj h).symm
    · rw [if_neg hused]
      exact (Option.some.inj h).symm

section

variable [DecidableEq T] [DecidableEq M]

/-- **A hook** changes the records of the graph and moves its thread. -/
theorem Inv.hook (h : Inv s) {x : Pc M} {g : TaskGraph T M} (hkeys : SameKeys s.graph g)
    (hq : s.graph.VertexOf q t) (hx : ∀ n, x ≠ .acquired n)
    (hrecord : ∀ n, x.Uses n → ∃ r, s.graph.LockOf r n)
    (hwaiting : ∀ v ∈ g.vertexList, ∀ r, v.waitting = some r ↔
      ∃ n, s.graph.LockOf r n ∧ (Function.update s.pc t x v.tid).Wants n)
    (hused : ∀ l ∈ g.lockList,
      l.used = System.users { s with pc := Function.update s.pc t x, graph := g } l.lock)
    (hholder : ∀ l ∈ g.lockList, ∀ r, l.holder = some r → ∃ u, s.graph.VertexOf r u ∧
      System.Holds { s with pc := Function.update s.pc t x, graph := g } u l.lock) :
    Inv { s with pc := Function.update s.pc t x, graph := g } := by
  constructor
  · exact hkeys.distinct h.distinct
  · intro u hu
    simp only [hkeys.vertexOf]
    exact known_update h.known hq u hu
  · intro u n hu
    simp only [hkeys.vertexOf]
    exact h.owning u n hu
  · exact acquired_update h.acquired hx
  · intro n hn
    simp only [hkeys.lockOf]
    by_cases hxn : x.Uses n
    · exact hrecord n hxn
    · exact h.record n (hn.imp_left (uses_of_update hxn))
  · simpa only [hkeys.lockOf] using hwaiting
  · exact hused
  · simpa only [hkeys.vertexOf] using hholder

/-- A thread that moves between places where it wants the same leaves the waiting of the vertices
right. -/
theorem Inv.waiting_update (h : Inv s) {x : Pc M} (hx : ∀ n, x.Wants n ↔ (s.pc t).Wants n) :
    ∀ v ∈ s.graph.vertexList, ∀ r, v.waitting = some r ↔
      ∃ n, s.graph.LockOf r n ∧ (Function.update s.pc t x v.tid).Wants n := by
  intro v hv r
  rw [h.waiting v hv r]
  exact exists_congr fun n => and_congr_right fun _ => (wants_update (hx n)).symm

/-- A thread starts to wait for a mutex. -/
theorem Inv.addRelation (h : Inv s) (hq : s.graph.VertexOf q t) (hp : s.graph.LockOf p m)
    (hpc : s.pc t = .idle) :
    Inv { s with
      pc := Function.update s.pc t (.acquiring m)
      graph := addRelationBeforeLock s.graph q p } := by
  have hkeys : SameKeys s.graph (addRelationBeforeLock s.graph q p) :=
    sameKeys_addRelationBeforeLock
  refine h.hook hkeys hq (by nofun) (fun n hn => ?_) ?_ ?_ ?_
  -- the waiting edges: that of the thread is new, the others are as before
  · rcases hn with he | he
    · cases he
      exact ⟨p, hp⟩
    · cases he
  · intro w hw r
    obtain ⟨v, hv, rfl⟩ := mem_setVertex.mp hw
    by_cases hvq : v.ptr = q
    · have hvt := (h.ptr_eq_iff hq hv).mp hvq
      simp only [if_pos hvq, hvt, Function.update_self, Pc.Wants, Option.some.injEq]
      constructor
      · rintro rfl
        exact ⟨m, hp, Or.inl rfl⟩
      · rintro ⟨n, hn, he | he⟩
        · cases he
          exact h.distinct.lockOf_mtx hp hn
        · cases he
    · have hvt : v.tid ≠ t := mt (h.ptr_eq_iff hq hv).mpr hvq
      simp only [if_neg hvq, Function.update_of_ne hvt]
      exact h.waiting v hv r
  -- the counter: the thread comes in addition to those counted so far
  · intro k hk
    obtain ⟨l, hl, rfl⟩ := mem_setLock.mp hk
    rw [System.users_update _ h.distinct.vtid hq.tid_mem hkeys.vtid]
    by_cases hlp : l.ptr = p
    · have hlm := (h.lptr_eq_iff hp hl).mp hlp
      simp only [if_pos hlp, hlm, h.used l hl, hpc, Pc.Uses]
      simp
    · have hlm : l.lock ≠ m := mt (h.lptr_eq_iff hp hl).mpr hlp
      simp only [if_neg hlp, h.used l hl, hpc, Pc.Uses]
      simp [Ne.symm hlm]
  -- the holders are as before, since only the counter of the record has changed
  · intro k hk r hr
    obtain ⟨l, hl, rfl⟩ := mem_setLock.mp hk
    obtain ⟨u, hu, hold⟩ := h.holder l hl r (by split_ifs at hr <;> exact hr)
    refine ⟨u, hu, ?_⟩
    have hlock : (if l.ptr = p then { l with used := l.used + 1 } else l).lock = l.lock := by
      split_ifs <;> rfl
    rw [hlock]
    by_cases hut : u = t
    · rw [hut, System.Holds, hpc] at hold
      simpa [hut, System.Holds] using hold
    · simpa only [System.Holds, Function.update_of_ne hut] using hold

/-- A thread that waits gets its mutex. -/
theorem Inv.acquire (h : Inv s) (hpc : s.pc t = .acquiring m) (ho : s.owner m = none) :
    Inv { s with
      pc := Function.update s.pc t (.acquired m)
      owner := Function.update s.owner m (some t) } := by
  obtain ⟨q, hq⟩ := h.known t (by rw [hpc]; nofun)
  constructor
  · exact h.distinct
  · exact known_update h.known hq
  -- every owner has a vertex, the new one because it has come through the hook
  · intro u n hu
    by_cases hnm : n = m
    · obtain rfl : t = u := by simpa [hnm] using hu
      exact ⟨q, hq⟩
    · exact h.owning u n (by simpa [Function.update_of_ne hnm] using hu)
  · intro u n hu
    by_cases hut : u = t
    · rw [hut] at hu ⊢
      obtain rfl : m = n := by simpa using hu
      exact Function.update_self _ _ _
    · have hown := h.acquired u n (by simpa [Function.update_of_ne hut] using hu)
      have hnm : n ≠ m := by
        rintro rfl
        rw [ho] at hown
        cases hown
      simpa only [Function.update_of_ne hnm] using hown
  · intro n hn
    -- the acquired lock has a record since the hook before it
    by_cases hnm : n = m
    · exact h.record n (Or.inl ⟨t, Or.inl (by rw [hpc, hnm])⟩)
    · refine h.record n (hn.imp (uses_of_update (by simp [Pc.Uses])) ?_)
      simp [Function.update_of_ne hnm]
  · exact h.waiting_update (by simp [hpc, Pc.Wants])
  -- the thread is counted as an owner where it has been counted as waiting
  · intro l hl
    rw [System.users_update _ h.distinct.vtid hq.tid_mem rfl, h.used l hl]
    by_cases hlm : l.lock = m
    · simp [hlm, hpc, ho, Pc.Uses]
    · simp [hpc, Pc.Uses, Function.update_of_ne hlm, Ne.symm hlm]
  · intro l hl r hr
    obtain ⟨u, hu, hold⟩ := h.holder l hl r hr
    refine ⟨u, hu, ?_⟩
    by_cases hut : u = t
    · -- it does not hold the mutex that it waits for, whose owner there is none
      have hlm : l.lock ≠ m := by
        intro hlm
        rw [System.Holds, hut, hlm, ho, hpc] at hold
        simp at hold
      rw [System.Holds, hut, hpc] at hold
      simpa [System.Holds, hut, Function.update_of_ne hlm, Ne.symm hlm] using hold
    · refine hold.imp (fun hown => ?_) fun hrel => ?_
      · have hlm : l.lock ≠ m := by
          intro hlm
          rw [hlm, ho] at hown
          cases hown.1
        simpa only [Function.update_of_ne hut, Function.update_of_ne hlm] using hown
      · simpa only [Function.update_of_ne hut] using hrel

/-- A thread that has got its mutex is recorded as the holder. -/
theorem Inv.becomeHolder (h : Inv s) (hq : s.graph.VertexOf q t) (hp : s.graph.LockOf p m)
    (hpc : s.pc t = .acquired m) :
    Inv { s with
      pc := Function.update s.pc t .idle
      graph := becomeHolderAfterLock s.graph q p } := by
  have hkeys : SameKeys s.graph (becomeHolderAfterLock s.graph q p) :=
    sameKeys_becomeHolderAfterLock
  refine h.hook hkeys hq (by nofun) (by simp [Pc.Uses]) ?_ ?_ ?_
  -- no edge is left to wait for, and the other edges are as before
  · intro w hw r
    obtain ⟨v, hv, rfl⟩ := mem_setVertex.mp hw
    by_cases hvq : v.ptr = q
    · have hvt := (h.ptr_eq_iff hq hv).mp hvq
      simp [if_pos hvq, hvt, Pc.Wants]
    · have hvt : v.tid ≠ t := mt (h.ptr_eq_iff hq hv).mpr hvq
      simp only [if_neg hvq, Function.update_of_ne hvt]
      exact h.waiting v hv r
  · intro k hk
    obtain ⟨l, hl, rfl⟩ := mem_setLock.mp hk
    rw [System.users_update _ h.distinct.vtid hq.tid_mem hkeys.vtid]
    have hlock : (if l.ptr = p then { l with holder := some q } else l).lock = l.lock := by
      split_ifs <;> rfl
    have hused : (if l.ptr = p then { l with holder := some q } else l).used = l.used := by
      split_ifs <;> rfl
    rw [hlock, hused, h.used l hl]
    simp [hpc, Pc.Uses]
  -- the recorded holder is the thread, which owns the lock
  · intro k hk r hr
    obtain ⟨l, hl, rfl⟩ := mem_setLock.mp hk
    by_cases hlp : l.ptr = p
    · have hlm := (h.lptr_eq_iff hp hl).mp hlp
      simp only [if_pos hlp, Option.some.injEq] at hr ⊢
      exact ⟨t, hr ▸ hq, Or.inl ⟨hlm ▸ h.acquired t m hpc, by simp⟩⟩
    · simp only [if_neg hlp] at hr ⊢
      obtain ⟨u, hu, hold⟩ := h.holder l hl r hr
      refine ⟨u, hu, ?_⟩
      by_cases hut : u = t
      · rw [System.Holds, hut, hpc] at hold
        simp only [System.Holds, hut, Function.update_self]
        exact Or.inl ⟨(hold.resolve_right (by nofun)).1, by nofun⟩
      · simpa only [System.Holds, Function.update_of_ne hut] using hold

/-- A thread frees a mutex. -/
theorem Inv.release (h : Inv s) (hpc : s.pc t = .idle) (ho : s.owner m = some t) :
    Inv { s with
      pc := Function.update s.pc t (.released m)
      owner := Function.update s.owner m none } := by
  obtain ⟨q, hq⟩ := h.owning t m ho
  constructor
  · exact h.distinct
  · exact known_update h.known hq
  · intro u n hu
    by_cases hnm : n = m
    · simp [hnm] at hu
    · exact h.owning u n (by simpa [Function.update_of_ne hnm] using hu)
  · intro u n hu
    have hacq : s.pc u = .acquired n := pc_of_update (by nofun) hu
    have hown := h.acquired u n hacq
    -- another thread that has acquired a lock owns it, so it is not this one
    have hnm : n ≠ m := by
      rintro rfl
      obtain rfl : t = u := Option.some.inj (ho.symm.trans hown)
      rw [hpc] at hacq
      cases hacq
    simpa only [Function.update_of_ne hnm] using hown
  · intro n hn
    by_cases hnm : n = m
    · exact h.record n (Or.inr (by rw [hnm, ho]; nofun))
    · refine h.record n (hn.imp (uses_of_update (by simp [Pc.Uses, Ne.symm hnm])) ?_)
      simp [Function.update_of_ne hnm]
  · exact h.waiting_update (by simp [hpc, Pc.Wants])
  -- the thread is counted in the unlock hook where it has been counted as an owner
  · intro l hl
    rw [System.users_update _ h.distinct.vtid hq.tid_mem rfl, h.used l hl]
    by_cases hlm : l.lock = m
    · simp [hlm, hpc, ho, Pc.Uses]
    · simp [hpc, Pc.Uses, Function.update_of_ne hlm, Ne.symm hlm]
  · intro l hl r hr
    obtain ⟨u, hu, hold⟩ := h.holder l hl r hr
    refine ⟨u, hu, ?_⟩
    by_cases hlm : l.lock = m
    · -- the owner that is recorded goes into the unlock hook
      rw [hlm] at hold ⊢
      rcases hold with ⟨hown, -⟩ | hrel
      · obtain rfl : t = u := by simpa [ho] using hown
        exact Or.inr (Function.update_self _ _ _)
      · have hut : u ≠ t := by
          rintro rfl
          rw [hpc] at hrel
          cases hrel
        exact Or.inr (by simpa only [Function.update_of_ne hut] using hrel)
    · by_cases hut : u = t
      · rw [System.Holds, hut, hpc] at hold
        simpa [System.Holds, hut, Function.update_of_ne hlm, Ne.symm hlm] using hold
      · simpa only [System.Holds, Function.update_of_ne hut, Function.update_of_ne hlm] using hold

/-- The record of a mutex that a thread has freed. -/
theorem Inv.dereference (h : Inv s) (hp : s.graph.LockOf p m) (hpc : s.pc t = .released m) :
    Inv { s with
      pc := Function.update s.pc t .idle
      graph := dereferenceAfterUnlock s.graph p } := by
  obtain ⟨q, hq⟩ := h.known t (by rw [hpc]; nofun)
  have hkeys : SameKeys s.graph (dereferenceAfterUnlock s.graph p) :=
    sameKeys_dereferenceAfterUnlock
  refine h.hook hkeys hq (by nofun) (by simp [Pc.Uses])
    (h.waiting_update (by simp [hpc, Pc.Wants])) ?_ ?_
  · intro k hk
    obtain ⟨l, hl, rfl⟩ := mem_setLock.mp hk
    rw [System.users_update _ h.distinct.vtid hq.tid_mem hkeys.vtid]
    by_cases hlp : l.ptr = p
    · have hlm := (h.lptr_eq_iff hp hl).mp hlp
      simp [if_pos hlp, hlm, h.used l hl, hpc, Pc.Uses]
    · have hlm : l.lock ≠ m := mt (h.lptr_eq_iff hp hl).mpr hlp
      simp [if_neg hlp, h.used l hl, hpc, Pc.Uses, Ne.symm hlm]
  · intro k hk r hr
    obtain ⟨l, hl, rfl⟩ := mem_setLock.mp hk
    by_cases hlp : l.ptr = p
    · simp [if_pos hlp] at hr
    · have hlm : l.lock ≠ m := mt (h.lptr_eq_iff hp hl).mpr hlp
      simp only [if_neg hlp] at hr ⊢
      obtain ⟨u, hu, hold⟩ := h.holder l hl r hr
      refine ⟨u, hu, ?_⟩
      by_cases hut : u = t
      · rw [System.Holds, hut, hpc] at hold
        simpa [System.Holds, hut, Ne.symm hlm] using hold
      · simpa only [System.Holds, Function.update_of_ne hut] using hold

/-- **`before_lock`** adds a vertex if the thread has none, and a lock if the mutex has none, and
then the relation of the two. What these additions keep holds of the graph before the relation. -/
theorem beforeLock_induct {g g' : TaskGraph T M} {pv pl : ℕ} {P : TaskGraph T M → Prop}
    (hpv : ∀ v ∈ g.vertexList, v.ptr ≠ pv) (hpl : ∀ l ∈ g.lockList, l.ptr ≠ pl)
    (hg : beforeLock g t m (some pv) (some pl) = some g') (h : P g)
    (hvertex : (∀ v ∈ g.vertexList, v.tid ≠ t) →
      P { g with vertexList := g.vertexList ++ [⟨pv, t, none⟩] })
    (hlock : ∀ g₁ : TaskGraph T M, P g₁ → (∀ l ∈ g₁.lockList, l.ptr ≠ pl) →
      (∀ l ∈ g₁.lockList, l.lock ≠ m) →
        P { g₁ with lockList := g₁.lockList ++ [⟨pl, none, m, 0⟩] }) :
    ∃ g₁ q p, P g₁ ∧ g₁.VertexOf q t ∧ g₁.LockOf p m ∧ g' = addRelationBeforeLock g₁ q p := by
  rw [beforeLock, Option.bind_eq_some_iff] at hg
  obtain ⟨⟨g₁, q⟩, hvtx, hg⟩ := hg
  obtain ⟨⟨g₂, p⟩, hlck, rfl⟩ := Option.map_eq_some_iff.mp hg
  have hfirst : P g₁ ∧ g₁.VertexOf q t ∧ g₁.lockList = g.lockList := by
    rcases findOrAddVertex_cases hpv hvtx with ⟨rfl, hq⟩ | ⟨ht, rfl, rfl⟩
    · exact ⟨h, hq, rfl⟩
    · exact ⟨hvertex ht, vertexOf_append.mpr (Or.inr ⟨rfl, rfl⟩), rfl⟩
  obtain ⟨h₁, hq, hlocks⟩ := hfirst
  rw [← hlocks] at hpl
  rcases findOrAddLock_cases hpl hlck with ⟨rfl, hp⟩ | ⟨hm, rfl, rfl⟩
  · exact ⟨g₂, q, p, h₁, hq, hp, rfl⟩
  · exact ⟨_, q, p, hlock g₁ h₁ hpl hm, hq, lockOf_append.mpr (Or.inr ⟨rfl, rfl⟩), rfl⟩

theorem afterLock_eq {g g' : TaskGraph T M} (h : afterLock g t m = some g') :
    ∃ q p, g.VertexOf q t ∧ g.LockOf p m ∧ g' = becomeHolderAfterLock g q p := by
  rw [afterLock] at h
  split at h
  · rename_i v l hv hl
    exact ⟨v.ptr, l.ptr, vertexOf_of_searchVertex hv,
      ⟨l, (lockOf_of_searchLock hl).1, rfl, (lockOf_of_searchLock hl).2⟩,
      (Option.some.inj h).symm⟩
  · cases h

/-- **Every step of the program keeps the invariant.** -/
theorem Inv.step {a : Act T M} (h : Inv s) (hs : Step s a s') : Inv s' := by
  cases hs with
  | @beforeLock t m pv pl g hpc hpv hpl hg =>
    obtain ⟨g₁, q, p, h₁, hq, hp, rfl⟩ := beforeLock_induct
      (P := fun g => Inv { s with graph := g }) hpv hpl hg h (fun ht => h.addVertex hpv ht hpc)
      fun g₁ h₁ hpl hm => h₁.addLock hpl hm
    exact h₁.addRelation hq hp hpc
  | acquire hpc ho => exact h.acquire hpc ho
  | @afterLock t m g hpc hg =>
    obtain ⟨q, p, hq, hp, rfl⟩ := afterLock_eq hg
    exact h.becomeHolder hq hp hpc
  | release hpc ho => exact h.release hpc ho
  | @afterUnlock t m g hpc hg =>
    obtain ⟨l, hl, hlm, rfl⟩ := afterUnlock_eq hg
    have hp : s.graph.LockOf l.ptr m := ⟨l, hl, rfl, hlm⟩
    have h₁ := h.dereference hp hpc
    split_ifs with hused
    · refine h₁.removeLock ((sameKeys_dereferenceAfterUnlock.lockOf _ _).mpr hp) ?_
      have hnew := h₁.used _ (mem_setLock.mpr ⟨l, hl, rfl⟩)
      simp only [if_true, hlm] at hnew
      rw [← hnew]
      exact hused
    · exact h₁

end

/-! ### Recorded owners -/

/-- What `after_unlock` needs for no recorded holder to be lost: the mutex is free, or its
owner has not come to `after_lock` yet. -/
def Act.FreeOrNew (s : System T M) : Act T M → Prop
  | .afterUnlock _ m => ∀ u, s.owner m = some u → s.pc u = .acquired m
  | _ => True

theorem Recorded.addVertex {v : Vertex T} (hr : Recorded s) :
    Recorded { s with graph := { s.graph with vertexList := s.graph.vertexList ++ [v] } } := by
  intro l hl u hown hpc
  obtain ⟨r, hu, hold⟩ := hr l hl u hown hpc
  exact ⟨r, vertexOf_append.mpr (Or.inl hu), hold⟩

theorem Recorded.addLock [DecidableEq M] (hr : Recorded s) (h : Inv s)
    (hm : ∀ l ∈ s.graph.lockList, l.lock ≠ m) :
    Recorded { s with
      graph := { s.graph with lockList := s.graph.lockList ++ [⟨p, none, m, 0⟩] } } := by
  intro l hl u hown hpc
  rcases List.mem_append.mp hl with hl | hl
  · exact hr l hl u hown hpc
  · obtain rfl := List.mem_singleton.mp hl
    have ho : s.owner m ≠ none := by
      rw [show s.owner m = some u from hown]
      nofun
    obtain ⟨r, k, hk, -, hkm⟩ := h.record m (Or.inr ho)
    exact absurd hkm (hm k hk)

theorem Recorded.addRelation [DecidableEq T] (hr : Recorded s) (hpc : s.pc t = .idle) :
    Recorded { s with
      pc := Function.update s.pc t (.acquiring m)
      graph := addRelationBeforeLock s.graph q p } := by
  intro k hk u hown hne
  obtain ⟨l, hl, rfl⟩ := mem_setLock.mp hk
  have hlock : (if l.ptr = p then { l with used := l.used + 1 } else l).lock = l.lock ∧
      (if l.ptr = p then { l with used := l.used + 1 } else l).holder = l.holder := by
    split_ifs <;> exact ⟨rfl, rfl⟩
  rw [hlock.1] at hown hne
  rw [hlock.2]
  simp only [sameKeys_addRelationBeforeLock.vertexOf]
  exact hr l hl u hown (ne_acquired_of_update (by rw [hpc]; nofun) hne)

section

variable [DecidableEq T] [DecidableEq M]

theorem Recorded.acquire (hr : Recorded s) (hpc : s.pc t = .acquiring m) :
    Recorded { s with
      pc := Function.update s.pc t (.acquired m)
      owner := Function.update s.owner m (some t) } := by
  intro l hl u hown hne
  by_cases hlm : l.lock = m
  · -- the new owner has not come to after_lock
    obtain rfl : t = u := by simpa [hlm] using hown
    simp [hlm] at hne
  · simp only [Function.update_of_ne hlm] at hown
    exact hr l hl u hown (ne_acquired_of_update (by rw [hpc]; nofun) hne)

theorem Recorded.becomeHolder (hr : Recorded s) (h : Inv s) (hq : s.graph.VertexOf q t)
    (hp : s.graph.LockOf p m) (hpc : s.pc t = .acquired m) :
    Recorded { s with
      pc := Function.update s.pc t .idle
      graph := becomeHolderAfterLock s.graph q p } := by
  intro k hk u hown hne
  obtain ⟨l, hl, rfl⟩ := mem_setLock.mp hk
  simp only [sameKeys_becomeHolderAfterLock.vertexOf]
  by_cases hlp : l.ptr = p
  · have hlm := (h.lptr_eq_iff hp hl).mp hlp
    simp only [if_pos hlp, hlm] at hown ⊢
    obtain rfl : t = u := by simpa [h.acquired t m hpc] using hown
    exact ⟨q, hq, rfl⟩
  · have hlm : l.lock ≠ m := mt (h.lptr_eq_iff hp hl).mpr hlp
    simp only [if_neg hlp] at hown hne ⊢
    exact hr l hl u hown (ne_acquired_of_update (by simpa [hpc] using Ne.symm hlm) hne)

theorem Recorded.release (hr : Recorded s) (hpc : s.pc t = .idle) :
    Recorded { s with
      pc := Function.update s.pc t (.released m)
      owner := Function.update s.owner m none } := by
  intro l hl u hown hne
  by_cases hlm : l.lock = m
  · simp [hlm] at hown
  · simp only [Function.update_of_ne hlm] at hown
    exact hr l hl u hown (ne_acquired_of_update (by rw [hpc]; nofun) hne)

theorem Recorded.dereference (hr : Recorded s) (h : Inv s) (hp : s.graph.LockOf p m)
    (hpc : s.pc t = .released m) (hfree : ∀ u, s.owner m = some u → s.pc u = .acquired m) :
    Recorded { s with
      pc := Function.update s.pc t .idle
      graph := dereferenceAfterUnlock s.graph p } := by
  intro k hk u hown hne
  obtain ⟨l, hl, rfl⟩ := mem_setLock.mp hk
  simp only [sameKeys_dereferenceAfterUnlock.vertexOf]
  by_cases hlp : l.ptr = p
  · -- the holder is cleared, but the owner has still to be recorded
    have hlm := (h.lptr_eq_iff hp hl).mp hlp
    simp only [if_pos hlp, hlm] at hown hne
    have hu := hfree u hown
    have hut : u ≠ t := by
      rintro rfl
      rw [hpc] at hu
      cases hu
    rw [Function.update_of_ne hut] at hne
    exact absurd hu hne
  · simp only [if_neg hlp] at hown hne ⊢
    exact hr l hl u hown (ne_acquired_of_update (by rw [hpc]; nofun) hne)

/-- **A step keeps the recorded owners**, unless it is an `after_unlock` that comes after the
next owner's `after_lock`. -/
theorem Recorded.step {a : Act T M} (hr : Recorded s) (h : Inv s) (hs : Step s a s')
    (ha : a.FreeOrNew s) : Recorded s' := by
  cases hs with
  | @beforeLock t m pv pl g hpc hpv hpl hg =>
    obtain ⟨g₁, q, p, h₁, hq, hp, rfl⟩ := beforeLock_induct
      (P := fun g => Inv { s with graph := g } ∧ Recorded { s with graph := g }) hpv hpl hg ⟨h, hr⟩
      (fun ht => ⟨h.addVertex hpv ht hpc, hr.addVertex⟩)
      fun g₁ h₁ hpl hm => ⟨h₁.1.addLock hpl hm, h₁.2.addLock h₁.1 hm⟩
    exact h₁.2.addRelation hpc
  | acquire hpc ho => exact hr.acquire hpc
  | @afterLock t m g hpc hg =>
    obtain ⟨q, p, hq, hp, rfl⟩ := afterLock_eq hg
    exact hr.becomeHolder h hq hp hpc
  | release hpc ho => exact hr.release hpc
  | @afterUnlock t m g hpc hg =>
    obtain ⟨l, hl, hlm, rfl⟩ := afterUnlock_eq hg
    have h₁ := hr.dereference h ⟨l, hl, rfl, hlm⟩ hpc ha
    split_ifs with hused
    · exact fun k hk => h₁ k (List.mem_filter.mp hk).1
    · exact h₁

end

end Deadlock

end BackendStudy
