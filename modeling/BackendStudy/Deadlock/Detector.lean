import BackendStudy.Deadlock.Steps

/-!
# What the detector finds

The detector follows the links of the graph, from a vertex to the recorded holder of the lock
it waits for. In every state that the program can reach, a cycle of links is a real deadlock
(`BackendStudy.Deadlock.run_printCycle`): a stale holder is a thread in its unlock hook, which
waits for nothing and so is on no cycle, and a thread whose waiting is stale owns the mutex
itself.

The converse needs the owners to be recorded. It holds in runs in which no `after_unlock`
comes after the `after_lock` of the next owner (`BackendStudy.Deadlock.run_detectorPass`), and
fails in a run in which one does (`BackendStudy.Deadlock.not_detectorPass_sample`).
-/

namespace BackendStudy

namespace Deadlock

variable {T M : Type*} {s s' : System T M} {g : TaskGraph T M} {p q r : ℕ} {t u : T} {m : M}

/-! ### Links -/

theorem vertexAt_eq (h : g.Distinct) {v : Vertex T} (hv : v ∈ g.vertexList) :
    g.vertexAt v.ptr = some v :=
  find?_key h.vptr hv

theorem lockAt_eq (h : g.Distinct) {l : ResourceLock M} (hl : l ∈ g.lockList) :
    g.lockAt l.ptr = some l :=
  find?_key h.lptr hl

theorem mapM_eq_some_map {α β : Type*} {f : α → Option β} {f' : α → β} {as : List α}
    (h : ∀ a ∈ as, f a = some (f' a)) : as.mapM f = some (as.map f') := by
  induction as with
  | nil => rfl
  | cons a as ih =>
    rw [List.mapM_cons, h a List.mem_cons_self, ih fun b hb => h b (List.mem_cons_of_mem _ hb)]
    rfl

section

variable [DecidableEq M]

/-- A link goes from a thread that wants a mutex to its recorded holder. -/
theorem Inv.of_getWaitVertex (h : Inv s) (hr : getWaitVertex s.graph q = some r) :
    ∃ t u m, s.graph.VertexOf q t ∧ s.graph.VertexOf r u ∧ (s.pc t).Wants m ∧ s.Holds u m := by
  obtain ⟨v, hv, hr⟩ := Option.bind_eq_some_iff.mp hr
  obtain ⟨p, hp, hr⟩ := Option.bind_eq_some_iff.mp hr
  obtain ⟨l, hl, hr⟩ := Option.bind_eq_some_iff.mp hr
  have hvmem := List.mem_of_find?_eq_some hv
  have hlmem := List.mem_of_find?_eq_some hl
  have hvq : v.ptr = q := by simpa using List.find?_some hv
  have hlp : l.ptr = p := by simpa using List.find?_some hl
  obtain ⟨m, hm, hwants⟩ := (h.waiting v hvmem p).mp hp
  obtain ⟨u, hu, hold⟩ := h.holder l hlmem r hr
  rw [h.distinct.lockOf_ptr ⟨l, hlmem, hlp, rfl⟩ hm] at hold
  exact ⟨v.tid, u, m, ⟨v, hvmem, hvq, rfl⟩, hu, hwants, hold⟩

/-- A thread that waits for a mutex has a link to its owner, if the owner is recorded. -/
theorem Inv.getWaitVertex_eq (h : Inv s) (hr : Recorded s) (hq : s.graph.VertexOf q t)
    (hu : s.graph.VertexOf r u) (ht : s.pc t = .acquiring m) (ho : s.owner m = some u)
    (hne : s.pc u ≠ .acquired m) : getWaitVertex s.graph q = some r := by
  obtain ⟨p, l, hl, rfl, rfl⟩ := h.record m (Or.inl ⟨t, Or.inl ht⟩)
  obtain ⟨r', hr', hold⟩ := hr l hl u ho hne
  obtain ⟨v, hv, rfl, rfl⟩ := hq
  have hwait : v.waitting = some l.ptr :=
    (h.waiting v hv l.ptr).mpr ⟨l.lock, ⟨l, hl, rfl, rfl⟩, Or.inl ht⟩
  rw [getWaitVertex, vertexAt_eq h.distinct hv, Option.bind_some, hwait, Option.bind_some,
    lockAt_eq h.distinct hl, Option.bind_some, hold, h.distinct.vertexOf_tid hr' hu]

theorem Inv.closed (h : Inv s) : ∀ q ∈ s.graph.vertexList.map Vertex.ptr, ∀ r,
    getWaitVertex s.graph q = some r → r ∈ s.graph.vertexList.map Vertex.ptr := by
  intro q _ r hr
  obtain ⟨-, u, -, -, ⟨v, hv, rfl, -⟩, -⟩ := h.of_getWaitVertex hr
  exact List.mem_map_of_mem hv

/-- **A round of the detector ends**, with a vertex on a cycle of links if there is one. -/
theorem Inv.returns_detectorPass (h : Inv s) :
    ∃ x, Loop.Returns (fun n => detectorPass s.graph n) x ∧
      (x = none → ∀ q ∈ s.graph.vertexList.map Vertex.ptr,
        Walk.Ends (getWaitVertex s.graph) q) ∧
      ∀ q, x = some q → ∃ qs, Walk.Cycle (getWaitVertex s.graph) q qs ∧ (q :: qs).Nodup :=
  Walk.returns_pass h.closed fun _ hq => hq

/-! ### Cycles of links are deadlocks -/

/-- On a cycle of links, the thread that is linked to is waiting, so that it does not sit in
its unlock hook, and owns the mutex. -/
theorem Inv.waitsFor_of_links (h : Inv s) {q' : ℕ} (hr : getWaitVertex s.graph q = some r)
    (hr' : getWaitVertex s.graph r = some q') :
    ∃ t u, s.graph.VertexOf q t ∧ s.graph.VertexOf r u ∧ s.waitsFor t = some u := by
  obtain ⟨t, u, m, hq, hu, hwants, hold⟩ := h.of_getWaitVertex hr
  obtain ⟨u', -, n, hu', -, hnext, -⟩ := h.of_getWaitVertex hr'
  obtain rfl := h.distinct.vertexOf_ptr hu hu'
  have hown : s.owner m = some u ∧ s.pc u ≠ .acquired m := by
    refine hold.resolve_right fun hrel => ?_
    rcases hnext with hnext | hnext <;> exact absurd (hrel.symm.trans hnext) (by nofun)
  refine ⟨t, u, hq, hu, ?_⟩
  rcases hwants with ht | ht
  · rw [System.waitsFor, ht]
    exact hown.1
  · -- a thread that has its mutex is the owner, and it has not run after_lock
    have htu : t = u := Option.some.inj ((h.acquired t m ht).symm.trans hown.1)
    exact absurd (htu ▸ ht) hown.2

/-- **A cycle of links is a deadlock**, and going round it lists its threads. -/
theorem Inv.printCycle_of_cycle (h : Inv s) {qs : List ℕ}
    (hcyc : Walk.Cycle (getWaitVertex s.graph) q qs) (hnodup : (q :: qs).Nodup) :
    ∃ t ts, Loop.Returns (fun n => printCycle s.graph n q) (t :: ts ++ [t]) ∧
      Walk.Cycle s.waitsFor t ts := by
  have hlink : ∀ r ∈ q :: qs, ∃ r' ∈ q :: qs, getWaitVertex s.graph r = some r' := fun r hr =>
    hcyc.next_of_mem hr
  obtain ⟨r₀, hr₀, hq₀⟩ := hlink q List.mem_cons_self
  obtain ⟨r₁, -, hr₁⟩ := hlink r₀ hr₀
  obtain ⟨t₀, -, -, -, -⟩ := h.waitsFor_of_links hq₀ hr₁
  -- the thread of a vertex, which there is for every vertex on the cycle
  let name : ℕ → T := fun r => ((s.graph.vertexAt r).map Vertex.tid).getD t₀
  have hname : ∀ r u, s.graph.VertexOf r u →
      (s.graph.vertexAt r).map Vertex.tid = some (name r) ∧ name r = u := by
    rintro r u ⟨v, hv, rfl, rfl⟩
    simp [name, vertexAt_eq h.distinct hv]
  have hwaits : ∀ r ∈ q :: qs, ∀ r' ∈ q :: qs, getWaitVertex s.graph r = some r' →
      s.waitsFor (name r) = some (name r') := by
    intro r _ r' hr' hrr'
    obtain ⟨r'', -, hr''⟩ := hlink r' hr'
    obtain ⟨t, u, ht, hu, htu⟩ := h.waitsFor_of_links hrr' hr''
    rw [(hname r t ht).2, (hname r' u hu).2, htu]
  have hread : ∀ r ∈ q :: qs ++ [q], (s.graph.vertexAt r).map Vertex.tid = some (name r) := by
    intro r hr
    have hmem : r ∈ q :: qs := by
      rcases List.mem_append.mp hr with hr | hr
      · exact hr
      · rw [List.mem_singleton.mp hr]
        exact List.mem_cons_self
    obtain ⟨r', -, hr'⟩ := hlink r hmem
    obtain ⟨t, -, -, ht, -⟩ := h.of_getWaitVertex hr'
    exact (hname r t ht).1
  refine ⟨name q, qs.map name, ?_, hcyc.map name hwaits⟩
  filter_upwards [Walk.returns_goRound hcyc hnodup] with n hn
  rw [printCycle, hn, Option.bind_some]
  exact (mapM_eq_some_map hread).trans (by simp)

end

/-! ### Runs -/

theorem recorded_init : Recorded (System.init : System T M) := by
  intro l hl
  cases hl

theorem inv_init [DecidableEq M] : Inv (System.init : System T M) := by
  constructor
  · exact ⟨List.nodup_nil, List.nodup_nil, List.nodup_nil, List.nodup_nil⟩
  · exact fun u hu => absurd rfl hu
  · exact fun u n hu => absurd hu (by nofun)
  · exact fun u n hu => absurd hu (by nofun)
  · rintro n (⟨u, hu⟩ | ho)
    · exact absurd rfl (Pc.Uses.ne_idle hu)
    · exact absurd rfl ho
  · exact fun v hv => absurd hv List.not_mem_nil
  · exact fun l hl => absurd hl List.not_mem_nil
  · exact fun l hl => absurd hl List.not_mem_nil

/-- The threads of a deadlock are in the real acquire. -/
theorem acquiring_of_waitsFor (h : s.waitsFor t = some u) :
    ∃ m, s.pc t = .acquiring m ∧ s.owner m = some u := by
  rw [System.waitsFor] at h
  split at h
  · exact ⟨_, by assumption, h⟩
  · cases h

section

variable [DecidableEq T] [DecidableEq M] {acts : List (Act T M)}

theorem inv_of_run (h : Runs.Run Step System.init acts s) : Inv s :=
  h.invariant inv_init fun _ _ _ hi hs => hi.step hs

theorem both_step {a : Act T M} (h : Inv s ∧ Recorded s)
    (hs : Runs.guard Act.FreeOrNew Step s a s') : Inv s' ∧ Recorded s' :=
  ⟨h.1.step hs.2, h.2.step h.1 hs.2 hs.1⟩

theorem recorded_of_run (h : Runs.Run (Runs.guard Act.FreeOrNew Step) System.init acts s) :
    Recorded s := by
  have hboth : Inv s ∧ Recorded s :=
    h.invariant ⟨inv_init, recorded_init⟩ fun _ _ _ hi hs => both_step hi hs
  exact hboth.2

/-- **What the detector reports is a deadlock**: it prints threads of which every one is in the
real acquire of a mutex that the next one really holds. -/
theorem run_printCycle {cross : ℕ} (h : Runs.Run Step System.init acts s)
    (hpass : Loop.Returns (fun n => detectorPass s.graph n) (some cross)) :
    ∃ t ts, Loop.Returns (fun n => printCycle s.graph n cross) (t :: ts ++ [t]) ∧
      Walk.Cycle s.waitsFor t ts := by
  have hi := inv_of_run h
  obtain ⟨x, hx, -, hsome⟩ := hi.returns_detectorPass
  obtain ⟨qs, hcyc, hnodup⟩ := hsome cross (hx.unique hpass)
  exact hi.printCycle_of_cycle hcyc hnodup

/-- **The detector finds a deadlock**, in runs in which `after_unlock` of a mutex runs only
while the mutex is free or its new owner has not run `after_lock`. -/
theorem run_detectorPass {ts : List T}
    (h : Runs.Run (Runs.guard Act.FreeOrNew Step) System.init acts s)
    (hcyc : Walk.Cycle s.waitsFor t ts) :
    ∃ cross, Loop.Returns (fun n => detectorPass s.graph n) (some cross) := by
  have hi := inv_of_run h.unguard
  have hr := recorded_of_run h
  -- the vertex of a thread, which there is for every thread on the cycle
  let vertex : T → ℕ := fun u => ((searchVertex s.graph u).map Vertex.ptr).getD 0
  have hvertex : ∀ u ∈ t :: ts, s.graph.VertexOf (vertex u) u := by
    intro u hu
    obtain ⟨w, -, huw⟩ := hcyc.next_of_mem hu
    obtain ⟨m, hpc, -⟩ := acquiring_of_waitsFor huw
    obtain ⟨-, v, hv, -, rfl⟩ := hi.known u (by rw [hpc]; nofun)
    have hfind : searchVertex s.graph v.tid = some v := find?_key hi.distinct.vtid hv
    exact ⟨v, hv, by simp [vertex, hfind], rfl⟩
  have hcycle : Walk.Cycle (getWaitVertex s.graph) (vertex t) (ts.map vertex) := by
    refine hcyc.map vertex fun u hu w hw huw => ?_
    obtain ⟨m, hpc, ho⟩ := acquiring_of_waitsFor huw
    obtain ⟨x, -, hwx⟩ := hcyc.next_of_mem hw
    obtain ⟨n, hpc', -⟩ := acquiring_of_waitsFor hwx
    exact hi.getWaitVertex_eq hr (hvertex u hu) (hvertex w hw) hpc ho (by rw [hpc']; nofun)
  obtain ⟨x, hx, hnone, -⟩ := hi.returns_detectorPass
  cases x with
  | some cross => exact ⟨cross, hx⟩
  | none =>
    obtain ⟨v, hv, he, -⟩ := hvertex t List.mem_cons_self
    have hmem : vertex t ∈ s.graph.vertexList.map Vertex.ptr := he ▸ List.mem_map_of_mem hv
    exact absurd (hnone rfl _ hmem) hcycle.not_ends

end

/-! ### Two threads and two mutexes -/

/-- Two threads lock a mutex each, and then wait for the mutex of the other one. -/
def sampleActs : List (Act (Fin 2) (Fin 2)) :=
  [.beforeLock 0 0 1000 2000, .acquire 0 0, .afterLock 0 0,
    .beforeLock 1 1 1100 2100, .acquire 1 1, .afterLock 1 1,
    .beforeLock 0 1 1200 2200, .beforeLock 1 0 1200 2200]

theorem run_sampleActs : ∃ s, Runs.Run (Runs.guard Act.FreeOrNew Step) System.init sampleActs s ∧
    Walk.Cycle s.waitsFor 0 [1] ∧ detectorPass s.graph 10 = some (some 1000) := by
  have h₀ : Runs.Run (Runs.guard Act.FreeOrNew Step) (System.init : System (Fin 2) (Fin 2)) []
      System.init := .nil
  have h₁ := h₀.snoc (i := Act.beforeLock 0 0 1000 2000)
    ⟨trivial, .beforeLock rfl (by decide) (by decide) rfl⟩
  have h₂ := h₁.snoc (i := Act.acquire 0 0) ⟨trivial, .acquire rfl rfl⟩
  have h₃ := h₂.snoc (i := Act.afterLock 0 0) ⟨trivial, .afterLock rfl rfl⟩
  have h₄ := h₃.snoc (i := Act.beforeLock 1 1 1100 2100)
    ⟨trivial, .beforeLock rfl (by decide) (by decide) rfl⟩
  have h₅ := h₄.snoc (i := Act.acquire 1 1) ⟨trivial, .acquire rfl rfl⟩
  have h₆ := h₅.snoc (i := Act.afterLock 1 1) ⟨trivial, .afterLock rfl rfl⟩
  have h₇ := h₆.snoc (i := Act.beforeLock 0 1 1200 2200)
    ⟨trivial, .beforeLock rfl (by decide) (by decide) rfl⟩
  have h₈ := h₇.snoc (i := Act.beforeLock 1 0 1200 2200)
    ⟨trivial, .beforeLock rfl (by decide) (by decide) rfl⟩
  exact ⟨_, h₈, ⟨rfl, rfl, rfl⟩, rfl⟩

/-- The two threads are printed. -/
theorem run_printCycle_sample : ∃ s, Runs.Run Step System.init sampleActs s ∧
    ∃ t ts, Loop.Returns (fun n => printCycle s.graph n 1000) (t :: ts ++ [t]) ∧
      Walk.Cycle s.waitsFor t ts := by
  obtain ⟨s, hrun, -, hpass⟩ := run_sampleActs
  exact ⟨s, hrun.unguard, run_printCycle hrun.unguard (Walk.stable_pass.returns hpass)⟩

/-- The two threads are found. -/
theorem run_detectorPass_sample : ∃ s,
    Runs.Run (Runs.guard Act.FreeOrNew Step) System.init sampleActs s ∧
    ∃ cross, Loop.Returns (fun n => detectorPass s.graph n) (some cross) := by
  obtain ⟨s, hrun, hcyc, -⟩ := run_sampleActs
  exact ⟨s, hrun, run_detectorPass hrun hcyc⟩

/-- The second thread gets the mutex that the first one has freed, and is recorded as its
holder before the first one clears the holder. -/
def lostActs : List (Act (Fin 2) (Fin 2)) :=
  [.beforeLock 0 0 1000 2000, .acquire 0 0, .afterLock 0 0, .beforeLock 1 0 1100 2100,
    .release 0 0, .acquire 1 0, .afterLock 1 0, .afterUnlock 0 0,
    .beforeLock 0 1 1200 2200, .acquire 0 1, .afterLock 0 1,
    .beforeLock 1 1 1200 2300, .beforeLock 0 0 1200 2300]

/-- **A deadlock that the detector does not find**: no thread is in its unlock hook, each of the
two waits for the mutex of the other one, and no link leads to the second one. -/
theorem not_detectorPass_sample : ∃ s, Runs.Run Step System.init lostActs s ∧
    Walk.Cycle s.waitsFor 0 [1] ∧ (∀ t m, s.pc t ≠ .released m) ∧
    Loop.Returns (fun n => detectorPass s.graph n) none := by
  have h₀ : Runs.Run Step (System.init : System (Fin 2) (Fin 2)) [] System.init := .nil
  have h₁ := h₀.snoc (i := Act.beforeLock 0 0 1000 2000)
    (.beforeLock rfl (by decide) (by decide) rfl)
  have h₂ := h₁.snoc (i := Act.acquire 0 0) (.acquire rfl rfl)
  have h₃ := h₂.snoc (i := Act.afterLock 0 0) (.afterLock rfl rfl)
  have h₄ := h₃.snoc (i := Act.beforeLock 1 0 1100 2100)
    (.beforeLock rfl (by decide) (by decide) rfl)
  have h₅ := h₄.snoc (i := Act.release 0 0) (.release rfl rfl)
  have h₆ := h₅.snoc (i := Act.acquire 1 0) (.acquire rfl rfl)
  have h₇ := h₆.snoc (i := Act.afterLock 1 0) (.afterLock rfl rfl)
  have h₈ := h₇.snoc (i := Act.afterUnlock 0 0) (.afterUnlock rfl rfl)
  have h₉ := h₈.snoc (i := Act.beforeLock 0 1 1200 2200)
    (.beforeLock rfl (by decide) (by decide) rfl)
  have h₁₀ := h₉.snoc (i := Act.acquire 0 1) (.acquire rfl rfl)
  have h₁₁ := h₁₀.snoc (i := Act.afterLock 0 1) (.afterLock rfl rfl)
  have h₁₂ := h₁₁.snoc (i := Act.beforeLock 1 1 1200 2300)
    (.beforeLock rfl (by decide) (by decide) rfl)
  have h₁₃ := h₁₂.snoc (i := Act.beforeLock 0 0 1200 2300)
    (.beforeLock rfl (by decide) (by decide) rfl)
  refine ⟨_, h₁₃, ⟨rfl, rfl, rfl⟩, ?_, Walk.stable_pass.returns (n := 10) rfl⟩
  intro t m
  match t with
  | 0 => nofun
  | 1 => nofun

end Deadlock

end BackendStudy
