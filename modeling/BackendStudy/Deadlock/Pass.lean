import BackendStudy.Deadlock.Detector

/-!
# The visited marks of the detector

A round of the detector searches from one vertex after the other. The source marks the
vertices it meets in the vertices themselves: `all_vertex_unvisited` clears the marks before a
search, the search stops at the first vertex that is marked
(`BackendStudy.Deadlock.searchCrossMarks`), and where it stops at none the next search starts
at the first vertex that the last one has left unmarked
(`BackendStudy.Deadlock.detectorRounds`).

On any graph whose pointers lead to its own vertices and locks
(`BackendStudy.Deadlock.WaitGraph`), and from any marks, the marks of a search are the
vertices it has met, so the rounds are a pass of `BackendStudy.Walk.pass`
(`BackendStudy.Deadlock.WaitGraph.detectorRounds_eq`). So a round ends, and prints a cycle
exactly if the graph has one (`BackendStudy.Deadlock.detectorRoutine_finds`). In the states that
the program can reach it is one of threads that wait for each other
(`BackendStudy.Deadlock.Inv.detectorRoutine_deadlock`).
-/

namespace BackendStudy

namespace Deadlock

variable {T M : Type*}

/-! ### The source -/

/-- `all_vertex_unvisited`, on the vertices that are left. -/
def allVertexUnvisited : List ℕ → (ℕ → Bool) → ℕ → Bool
  | [], visited => visited
  | vtx :: rest, visited => allVertexUnvisited rest (Function.update visited vtx false)

/-- One round of `search_cross`: the state is the marks and the vertex to look at. -/
def searchCrossRound (g : TaskGraph T M) :
    (ℕ → Bool) × ℕ → ((ℕ → Bool) × ℕ) ⊕ (Option ℕ × (ℕ → Bool))
  | (visited, vtx) =>
    if visited vtx then .inr (some vtx, visited)
    else
      match getWaitVertex g vtx with
      | some next => .inl (Function.update visited vtx true, next)
      | none => .inr (none, Function.update visited vtx true)

/-- `search_cross`, with the marks. -/
def searchCrossMarks (g : TaskGraph T M) (fuel : ℕ) (visited : ℕ → Bool) (vtx : ℕ) :
    Option (Option ℕ × (ℕ → Bool)) :=
  Loop.run (searchCrossRound g) fuel (visited, vtx)

/-- The inner loop of `detector_routine`, from a place in the list of vertices: the vertex that
`search_cross` returns, if it returns one, and the marks. -/
def detectorRounds (g : TaskGraph T M) :
    ℕ → (ℕ → Bool) → List ℕ → Option (Option ℕ × (ℕ → Bool))
  | 0, _, _ => none
  | _ + 1, visited, [] => some (none, visited)
  | fuel + 1, visited, vtx :: rest =>
    (searchCrossMarks g fuel (allVertexUnvisited (g.vertexList.map Vertex.ptr) visited) vtx).bind
      fun
      | (some cross, visited) => some (some cross, visited)
      | (none, visited) => detectorRounds g fuel visited ((vtx :: rest).dropWhile visited)

/-- One round of `detector_routine`, with the graph locked: what it calls `print_cycle` on, with
the threads that are printed, if it calls it, and the marks it leaves. -/
def detectorRoutine (g : TaskGraph T M) (fuel : ℕ) (visited : ℕ → Bool) :
    Option (Option (ℕ × List T) × (ℕ → Bool)) :=
  (detectorRounds g fuel visited (g.vertexList.map Vertex.ptr)).bind fun
    | (none, visited) => some (none, visited)
    | (some cross, visited) =>
      (printCycle g fuel cross).map fun printed => (some (cross, printed), visited)

/-! ### Marks -/

/-- The marks that are cleared are those of the list. -/
theorem allVertexUnvisited_eq (vtxs : List ℕ) (visited : ℕ → Bool) (p : ℕ) :
    allVertexUnvisited vtxs visited p = if p ∈ vtxs then false else visited p := by
  induction vtxs generalizing visited with
  | nil => rw [allVertexUnvisited, if_neg List.not_mem_nil]
  | cons vtx rest ih =>
    rw [allVertexUnvisited, ih]
    by_cases hp : p = vtx
    · subst hp
      rw [if_pos List.mem_cons_self, Function.update_self, ite_self]
    · rw [Function.update_of_ne hp]
      simp only [List.mem_cons, hp, false_or]

/-- The marks on the vertices of a list are on the ones met. -/
def Marks (nodes : List ℕ) (visited : ℕ → Bool) (met : List ℕ) : Prop :=
  ∀ p ∈ nodes, visited p = decide (p ∈ met)

theorem marks_allVertexUnvisited (nodes : List ℕ) (visited : ℕ → Bool) :
    Marks nodes (allVertexUnvisited nodes visited) [] := by
  intro p hp
  rw [allVertexUnvisited_eq, if_pos hp]
  exact (decide_eq_false List.not_mem_nil).symm

theorem Marks.update {nodes met : List ℕ} {visited : ℕ → Bool} (h : Marks nodes visited met)
    (vtx : ℕ) : Marks nodes (Function.update visited vtx true) (vtx :: met) := by
  intro p hp
  by_cases heq : p = vtx
  · rw [heq, Function.update_self]
    exact (decide_eq_true List.mem_cons_self).symm
  · rw [Function.update_of_ne heq, h p hp]
    simp only [List.mem_cons, heq, false_or]

theorem dropWhile_congr {α : Type*} {f f' : α → Bool} {as : List α}
    (h : ∀ a ∈ as, f a = f' a) : as.dropWhile f = as.dropWhile f' := by
  induction as with
  | nil => rfl
  | cons a as ih =>
    rw [List.dropWhile_cons, List.dropWhile_cons, h a List.mem_cons_self,
      ih fun b hb => h b (List.mem_cons_of_mem _ hb)]

/-- More fuel does not change what the rounds find. -/
theorem stable_detectorRounds (g : TaskGraph T M) (visited : ℕ → Bool) (vtxs : List ℕ) :
    Loop.Stable fun n => detectorRounds g n visited vtxs := by
  intro m n a hle h
  induction m generalizing n visited vtxs with
  | zero => cases h
  | succ m ih =>
    obtain ⟨n, rfl⟩ : ∃ k, n = k + 1 := ⟨n - 1, by omega⟩
    cases vtxs with
    | nil => exact h
    | cons vtx rest =>
      simp only [detectorRounds, Option.bind_eq_some_iff] at h ⊢
      obtain ⟨⟨found, visited'⟩, hsearch, h⟩ := h
      refine ⟨(found, visited'), Loop.run_mono (by omega) hsearch, ?_⟩
      cases found with
      | some b => exact h
      | none => exact ih _ _ (by omega) h

/-! ### Wait graphs -/

/-- **A wait graph**: any vertices and locks, with any pointers that lead to them. -/
structure WaitGraph (T M : Type*) where
  /-- The two lists. -/
  graph : TaskGraph T M
  /-- The vertices are at different addresses. -/
  vptr : (graph.vertexList.map Vertex.ptr).Nodup
  /-- The locks are at different addresses. -/
  lptr : (graph.lockList.map ResourceLock.ptr).Nodup
  /-- A vertex waits for a lock of the list. -/
  waitting : ∀ v ∈ graph.vertexList, ∀ p, v.waitting = some p →
    p ∈ graph.lockList.map ResourceLock.ptr
  /-- A lock is held by a vertex of the list. -/
  holder : ∀ l ∈ graph.lockList, ∀ p, l.holder = some p → p ∈ graph.vertexList.map Vertex.ptr

namespace WaitGraph

variable (w : WaitGraph T M)

/-- The addresses of the vertices. -/
abbrev nodes : List ℕ := w.graph.vertexList.map Vertex.ptr

theorem vertexAt_eq {v : Vertex T} (hv : v ∈ w.graph.vertexList) :
    w.graph.vertexAt v.ptr = some v :=
  find?_key w.vptr hv

theorem lockAt_eq {l : ResourceLock M} (hl : l ∈ w.graph.lockList) :
    w.graph.lockAt l.ptr = some l :=
  find?_key w.lptr hl

/-- **The links of a wait graph** are its pointers: a vertex that waits for nothing has no link,
and any other one has a link to the holder of the lock it waits for, if that lock is held. -/
theorem getWaitVertex_eq {v : Vertex T} (hv : v ∈ w.graph.vertexList) :
    (v.waitting = none ∧ getWaitVertex w.graph v.ptr = none) ∨
      ∃ l ∈ w.graph.lockList, v.waitting = some l.ptr ∧
        getWaitVertex w.graph v.ptr = l.holder := by
  rw [getWaitVertex, w.vertexAt_eq hv, Option.bind_some]
  cases hwait : v.waitting with
  | none => exact Or.inl ⟨rfl, rfl⟩
  | some p =>
    obtain ⟨l, hl, rfl⟩ := List.mem_map.mp (w.waitting v hv p hwait)
    exact Or.inr ⟨l, hl, rfl, by rw [Option.bind_some, w.lockAt_eq hl, Option.bind_some]⟩

/-- Only a vertex of the list has a link, and it leads to one of the list. -/
theorem mem_of_getWaitVertex {q r : ℕ} (h : getWaitVertex w.graph q = some r) :
    q ∈ w.nodes ∧ r ∈ w.nodes := by
  obtain ⟨v, hv, h⟩ := Option.bind_eq_some_iff.mp h
  obtain ⟨p, -, h⟩ := Option.bind_eq_some_iff.mp h
  obtain ⟨l, hl, h⟩ := Option.bind_eq_some_iff.mp h
  have hvq : v.ptr = q := by simpa using List.find?_some hv
  exact ⟨hvq ▸ List.mem_map_of_mem (List.mem_of_find?_eq_some hv),
    w.holder l (List.mem_of_find?_eq_some hl) r h⟩

theorem closed : ∀ q ∈ w.nodes, ∀ r, getWaitVertex w.graph q = some r → r ∈ w.nodes :=
  fun _ _ _ h => (w.mem_of_getWaitVertex h).2

/-! ### The rounds are a pass -/

/-- **The search with marks** goes like the one that keeps the vertices it has met. -/
theorem searchCrossMarks_rel {visited : ℕ → Bool} (hclear : Marks w.nodes visited [])
    {vtx : ℕ} (hvtx : vtx ∈ w.nodes) (n : ℕ) :
    Option.Rel (fun x y => x.1 = y.1 ∧ Marks w.nodes x.2 y.2)
      (searchCrossMarks w.graph n visited vtx) (searchCross w.graph n vtx) := by
  refine Loop.run_simulates (R := fun s t => s.2 = t.2 ∧ s.2 ∈ w.nodes ∧ Marks w.nodes s.1 t.1)
    ?_ n ⟨rfl, hvtx, hclear⟩
  rintro ⟨visited, q⟩ ⟨met, q'⟩ ⟨rfl, hq, hmarks⟩
  change q ∈ w.nodes at hq
  change Marks w.nodes visited met at hmarks
  by_cases hmem : q ∈ met
  · have hvisited : visited q = true := by rw [hmarks q hq, decide_eq_true hmem]
    rw [searchCrossRound, Walk.searchStep, if_pos hmem, if_pos hvisited]
    exact .inr ⟨rfl, hmarks⟩
  · have hvisited : ¬visited q = true := by rw [hmarks q hq, decide_eq_false hmem]; decide
    rw [searchCrossRound, Walk.searchStep, if_neg hmem, if_neg hvisited]
    cases hnext : getWaitVertex w.graph q with
    | none => exact .inr ⟨rfl, hmarks.update q⟩
    | some r => exact .inl ⟨rfl, w.closed q hq r hnext, hmarks.update q⟩

/-- **The rounds with marks** find what a pass finds, whatever the marks are at first. -/
theorem detectorRounds_eq (n : ℕ) (visited : ℕ → Bool) {vtxs : List ℕ}
    (hsub : ∀ p ∈ vtxs, p ∈ w.nodes) :
    (detectorRounds w.graph n visited vtxs).map Prod.fst =
      Walk.pass (getWaitVertex w.graph) n vtxs := by
  induction n generalizing visited vtxs with
  | zero => rfl
  | succ n ih =>
    rcases vtxs with _ | ⟨vtx, rest⟩
    · rfl
    have hrel := w.searchCrossMarks_rel (marks_allVertexUnvisited w.nodes visited)
      (hsub vtx List.mem_cons_self) n
    rw [detectorRounds, Walk.pass]
    rw [searchCross] at hrel
    generalize searchCrossMarks w.graph n (allVertexUnvisited w.nodes visited) vtx = search,
      Walk.search (getWaitVertex w.graph) n vtx = search' at hrel ⊢
    cases hrel with
    | none => rfl
    | @some x y hxy =>
      obtain ⟨found, visited'⟩ := x
      obtain ⟨found', met⟩ := y
      obtain ⟨rfl, hmarks⟩ := hxy
      cases found with
      | some cross => rfl
      | none =>
        -- the vertices that are left out are those that the search has met
        have hdrop : (vtx :: rest).dropWhile visited' =
            (vtx :: rest).dropWhile fun p => decide (p ∈ met) :=
          dropWhile_congr fun p hp => hmarks p (hsub p hp)
        change (detectorRounds w.graph n visited' ((vtx :: rest).dropWhile visited')).map
          Prod.fst = Walk.pass (getWaitVertex w.graph) n
            ((vtx :: rest).dropWhile fun p => decide (p ∈ met))
        rw [hdrop]
        exact ih visited' fun p hp => hsub p ((List.dropWhile_suffix _).subset hp)

/-- **Going round a cycle** of a wait graph prints its threads, and the first one again. -/
theorem returns_printCycle {cross : ℕ} {qs : List ℕ}
    (hcyc : Walk.Cycle (getWaitVertex w.graph) cross qs) (hnodup : (cross :: qs).Nodup) :
    ∃ printed, Loop.Returns (fun n => printCycle w.graph n cross) printed ∧
      (cross :: qs ++ [cross]).map (fun p => (w.graph.vertexAt p).map Vertex.tid) =
        printed.map some := by
  have hread : ∀ p ∈ cross :: qs ++ [cross], ∃ t, (w.graph.vertexAt p).map Vertex.tid = some t := by
    intro p hp
    have hmem : p ∈ cross :: qs := by
      rcases List.mem_append.mp hp with hp | hp
      · exact hp
      · rw [List.mem_singleton.mp hp]
        exact List.mem_cons_self
    obtain ⟨r, -, hr⟩ := hcyc.next_of_mem hmem
    obtain ⟨v, hv, rfl⟩ := List.mem_map.mp (w.mem_of_getWaitVertex hr).1
    exact ⟨v.tid, by rw [w.vertexAt_eq hv, Option.map_some]⟩
  have : Nonempty T := ⟨(hread cross List.mem_cons_self).choose⟩
  choose! tid htid using hread
  refine ⟨(cross :: qs ++ [cross]).map tid, ?_, ?_⟩
  · filter_upwards [Walk.returns_goRound hcyc hnodup] with n hn
    rw [printCycle, hn, Option.bind_some]
    exact mapM_eq_some_map htid
  · rw [List.map_map]
    exact List.map_congr_left htid

/-- **A round** ends, with a cycle that is printed, or the links of every vertex come to an
end. -/
theorem returns_detectorRoutine (visited : ℕ → Bool) :
    ∃ found visited', Loop.Returns (fun n => detectorRoutine w.graph n visited)
        (found, visited') ∧
      (found = none → ∀ q ∈ w.nodes, Walk.Ends (getWaitVertex w.graph) q) ∧
      ∀ cross printed, found = some (cross, printed) →
        Loop.Returns (fun n => printCycle w.graph n cross) printed ∧
          ∃ qs, Walk.Cycle (getWaitVertex w.graph) cross qs ∧ (cross :: qs).Nodup := by
  obtain ⟨x, hpass, hends, hcycle⟩ := @Walk.returns_pass _ _ _ w.nodes w.nodes w.closed
    fun _ hp => hp
  obtain ⟨n, hn⟩ := hpass.exists_fuel
  rw [← w.detectorRounds_eq n visited fun p hp => hp, Option.map_eq_some_iff] at hn
  obtain ⟨⟨found, visited'⟩, hrounds, hfound⟩ := hn
  obtain rfl : found = x := hfound
  have hret := (stable_detectorRounds w.graph visited w.nodes).returns hrounds
  rcases found with _ | cross
  · exact ⟨none, visited', hret.bind (Loop.returns_pure _), fun _ => hends rfl, by nofun⟩
  · obtain ⟨qs, hcyc, hnodup⟩ := hcycle cross rfl
    obtain ⟨printed, hprint, -⟩ := w.returns_printCycle hcyc hnodup
    refine ⟨some (cross, printed), visited',
      hret.bind (hprint.map fun printed => (some (cross, printed), visited')), by nofun, ?_⟩
    rintro _ _ ⟨⟩
    exact ⟨hprint, qs, hcyc, hnodup⟩

end WaitGraph

/-- **A round of the detector** ends, whatever the marks are. It calls `print_cycle` exactly if
the graph has a cycle, on a vertex of one, and the threads of that cycle are printed once,
with the first one again at the end. -/
theorem detectorRoutine_finds (w : WaitGraph T M) (visited : ℕ → Bool) :
    ∃ found visited', Loop.Returns (fun n => detectorRoutine w.graph n visited)
        (found, visited') ∧
      (found.isSome ↔ ∃ q qs, Walk.Cycle (getWaitVertex w.graph) q qs) ∧
      ∀ cross printed, found = some (cross, printed) →
        ∃ qs, Walk.Cycle (getWaitVertex w.graph) cross qs ∧ (cross :: qs).Nodup ∧
          (cross :: qs ++ [cross]).map (fun p => (w.graph.vertexAt p).map Vertex.tid) =
            printed.map some := by
  obtain ⟨found, visited', hret, hends, hfound⟩ := w.returns_detectorRoutine visited
  refine ⟨found, visited', hret, ⟨fun hsome => ?_, ?_⟩, fun cross printed heq => ?_⟩
  · obtain ⟨⟨cross, printed⟩, heq⟩ := Option.isSome_iff_exists.mp hsome
    obtain ⟨-, qs, hcyc, -⟩ := hfound cross printed heq
    exact ⟨cross, qs, hcyc⟩
  · rintro ⟨q, qs, hcyc⟩
    obtain ⟨r, -, hr⟩ := hcyc.next_of_mem List.mem_cons_self
    refine Option.isSome_iff_ne_none.mpr fun heq => ?_
    exact hcyc.not_ends (hends heq q (w.mem_of_getWaitVertex hr).1)
  · obtain ⟨hprint, qs, hcyc, hnodup⟩ := hfound cross printed heq
    obtain ⟨printed', hprint', hmap⟩ := w.returns_printCycle hcyc hnodup
    obtain rfl := hprint.unique hprint'
    exact ⟨qs, hcyc, hnodup, hmap⟩

/-! ### The graphs of the program -/

section

variable [DecidableEq M] {s : System T M}

/-- The graph of every state that the program can reach is a wait graph. -/
def Inv.waitGraph (h : Inv s) : WaitGraph T M where
  graph := s.graph
  vptr := h.distinct.vptr
  lptr := h.distinct.lptr
  waitting v hv p hp := by
    obtain ⟨m, ⟨l, hl, rfl, -⟩, -⟩ := (h.waiting v hv p).mp hp
    exact List.mem_map_of_mem hl
  holder l hl p hp := by
    obtain ⟨t, ⟨v, hv, rfl, -⟩, -⟩ := h.holder l hl p hp
    exact List.mem_map_of_mem hv

/-- **What a round prints is a deadlock**, in every state that the program can reach. -/
theorem Inv.detectorRoutine_deadlock (h : Inv s) (visited : ℕ → Bool) :
    ∃ found visited', Loop.Returns (fun n => detectorRoutine s.graph n visited)
        (found, visited') ∧
      ∀ cross printed, found = some (cross, printed) →
        ∃ t ts, printed = t :: ts ++ [t] ∧ Walk.Cycle s.waitsFor t ts := by
  obtain ⟨found, visited', hret, -, hfound⟩ := h.waitGraph.returns_detectorRoutine visited
  refine ⟨found, visited', hret, fun cross printed heq => ?_⟩
  obtain ⟨hprint, qs, hcyc, hnodup⟩ := hfound cross printed heq
  obtain ⟨t, ts, hprint', hwaits⟩ := h.printCycle_of_cycle hcyc hnodup
  exact ⟨t, ts, hprint.unique hprint', hwaits⟩

end

end Deadlock

end BackendStudy
