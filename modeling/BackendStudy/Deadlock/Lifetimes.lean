import BackendStudy.Deadlock.Detector
import Mathlib.Data.Set.Card

/-!
# The life of a lock record

A `resource_lock` counts the threads between `before_lock` and `after_unlock` of its mutex, and
goes when the count comes to zero. The calls are counted here by the steps of the run
(`BackendStudy.Deadlock.pending`), and in every state that the program can reach they are what
the places of the threads and the owner of the mutex say (`BackendStudy.Deadlock.Matched`).

So a record is there for every thread that still needs it: no vertex waits for a record that is
gone, and the assertions of the hooks hold (`BackendStudy.Deadlock.run_lifetimes`). A thread
that waits for a mutex it holds is counted twice
(`BackendStudy.Deadlock.used_ne_ncard_sample`).
-/

namespace BackendStudy

namespace Deadlock

variable {T M : Type*}

section

variable [DecidableEq T] [DecidableEq M]

/-- A call of `before_lock` by a thread on a mutex. -/
def Act.opens : Act T M → T → M → Bool
  | .beforeLock u n _ _, t, m => u = t ∧ n = m
  | _, _, _ => false

/-- A call of `after_unlock` by a thread on a mutex. -/
def Act.closes : Act T M → T → M → Bool
  | .afterUnlock u n, t, m => u = t ∧ n = m
  | _, _, _ => false

/-- The `before_lock` calls of a thread on a mutex that no `after_unlock` has matched yet. -/
def pending (acts : List (Act T M)) (t : T) (m : M) : ℤ :=
  acts.countP (·.opens t m) - acts.countP (·.closes t m)

variable {acts : List (Act T M)} {a : Act T M} {s s' : System T M} {t u : T} {m n : M}

theorem pending_append : pending (acts ++ [a]) t m =
    pending acts t m + (if a.opens t m then 1 else 0) - if a.closes t m then 1 else 0 := by
  simp only [pending, List.countP_append, List.countP_singleton]
  split_ifs <;> push_cast <;> omega

/-- **The calls are matched** with the places of the threads and the owners of the mutexes. -/
structure Matched (acts : List (Act T M)) (s : System T M) : Prop where
  calls : ∀ t m, pending acts t m =
    (if s.owner m = some t then 1 else 0) + if (s.pc t).Uses m then 1 else 0
  released : ∀ t m, s.pc t = .released m → s.owner m ≠ some t

theorem matched_init : Matched [] (System.init : System T M) := by
  refine ⟨fun t m => ?_, fun t m hpc => ?_⟩
  · rw [if_neg (by simp [System.init]), if_neg (by simp [System.init, Pc.Uses])]
    rfl
  · cases hpc

/-- The calls are matched again if those of the thread that moves are, on the mutex it moves
for. -/
theorem Matched.calls_update (h : Matched acts s) {x : Pc M} {o : Option T}
    (hcalls : ∀ u n, u ≠ t ∨ n ≠ m → a.opens u n = false ∧ a.closes u n = false)
    (hhere : (if s.owner m = some t then 1 else 0) + (if (s.pc t).Uses m then 1 else 0) +
      (if a.opens t m then 1 else 0) - (if a.closes t m then 1 else 0) =
        (if o = some t then 1 else 0) + if x.Uses m then (1 : ℤ) else 0)
    (huses : ∀ n, n ≠ m → (x.Uses n ↔ (s.pc t).Uses n))
    (howner : ∀ u, u ≠ t → (o = some u ↔ s.owner m = some u)) (u : T) (n : M) :
    pending (acts ++ [a]) u n = (if Function.update s.owner m o n = some u then 1 else 0) +
      if (Function.update s.pc t x u).Uses n then 1 else 0 := by
  rw [pending_append, h.calls]
  by_cases hut : u = t
  · subst hut
    rw [Function.update_self]
    by_cases hnm : n = m
    · subst hnm
      rw [Function.update_self]
      exact hhere
    · obtain ⟨ho, hc⟩ := hcalls u n (Or.inr hnm)
      simp [ho, hc, Function.update_of_ne hnm, huses n hnm]
  · obtain ⟨ho, hc⟩ := hcalls u n (Or.inl hut)
    rw [Function.update_of_ne hut]
    by_cases hnm : n = m
    · subst hnm
      simp [ho, hc, howner u hut]
    · simp [ho, hc, Function.update_of_ne hnm]

/-- **A hook** leaves the owners, and its thread is not between a release and `after_unlock`
then. -/
theorem Matched.hook (h : Matched acts s) {x : Pc M} {g : TaskGraph T M}
    (hx : ∀ n, x ≠ .released n)
    (hcalls : ∀ u n, u ≠ t ∨ n ≠ m → a.opens u n = false ∧ a.closes u n = false)
    (hhere : (if (s.pc t).Uses m then 1 else 0) + (if a.opens t m then 1 else 0) -
      (if a.closes t m then 1 else 0) = if x.Uses m then (1 : ℤ) else 0)
    (huses : ∀ n, n ≠ m → (x.Uses n ↔ (s.pc t).Uses n)) :
    Matched (acts ++ [a]) { s with pc := Function.update s.pc t x, graph := g } := by
  refine ⟨?_, fun u n hu => h.released u n (pc_of_update (hx n) hu)⟩
  have hupdate := @Matched.calls_update _ _ _ _ acts a s t m h x (s.owner m) hcalls (by omega)
    huses fun u _ => Iff.rfl
  rw [Function.update_eq_self] at hupdate
  exact hupdate

/-- Every step matches its calls. -/
theorem Matched.step (h : Matched acts s) (hs : Step s a s') : Matched (acts ++ [a]) s' := by
  cases hs with
  | @beforeLock t m pv pl g hpc hpv hpl hg =>
    refine h.hook (m := m) (by simp) (fun u n hne => ?_) ?_ fun n hnm => ?_
    · rcases hne with hut | hnm
      · simp [Act.opens, Act.closes, Ne.symm hut]
      · simp [Act.opens, Act.closes, Ne.symm hnm]
    · simp [Act.opens, Act.closes, hpc, Pc.Uses]
    · simp [hpc, Pc.Uses, Ne.symm hnm]
  | @acquire t m hpc ho =>
    refine ⟨h.calls_update (fun u n _ => ⟨rfl, rfl⟩) ?_ (fun n hnm => ?_) fun u hut => ?_,
      fun u n hu => ?_⟩
    · simp [Act.opens, Act.closes, hpc, ho, Pc.Uses]
    · simp [hpc, Pc.Uses, Ne.symm hnm]
    · simp [ho, Ne.symm hut]
    -- a thread that has released the lock before is not the one that acquires it now
    · have hrel : s.pc u = .released n := pc_of_update (by simp) hu
      have hut : u ≠ t := by
        rintro rfl
        rw [hpc] at hrel
        cases hrel
      by_cases hnm : n = m
      · simpa [hnm] using Ne.symm hut
      · simpa [Function.update_of_ne hnm] using h.released u n hrel
  | @afterLock t m g hpc hg =>
    refine h.hook (m := m) (by simp) (fun u n _ => ⟨rfl, rfl⟩) ?_ fun n _ => ?_
    · simp [Act.opens, Act.closes, hpc, Pc.Uses]
    · simp [hpc, Pc.Uses]
  | @release t m hpc ho =>
    refine ⟨h.calls_update (fun u n _ => ⟨rfl, rfl⟩) ?_ (fun n hnm => ?_) fun u hut => ?_,
      fun u n hu => ?_⟩
    · simp [Act.opens, Act.closes, hpc, ho, Pc.Uses]
    · simp [hpc, Pc.Uses, Ne.symm hnm]
    · simp [ho, Ne.symm hut]
    -- the releasing thread is not the owner any more, and no other lock has changed
    · by_cases hnm : n = m
      · simp [hnm]
      · have hrel : s.pc u = .released n := pc_of_update (by simpa using Ne.symm hnm) hu
        simpa [Function.update_of_ne hnm] using h.released u n hrel
  | @afterUnlock t m g hpc hg =>
    refine h.hook (m := m) (by simp) (fun u n hne => ?_) ?_ fun n hnm => ?_
    · rcases hne with hut | hnm
      · simp [Act.opens, Act.closes, Ne.symm hut]
      · simp [Act.opens, Act.closes, Ne.symm hnm]
    · simp [Act.opens, Act.closes, hpc, Pc.Uses]
    · simp [hpc, Pc.Uses, Ne.symm hnm]

/-! ### Counting threads -/

theorem ncard_eq_countP {P : T → Prop} [DecidablePred P] {ts : List T} (hn : ts.Nodup)
    (hmem : ∀ t, P t → t ∈ ts) : {t | P t}.ncard = ts.countP P := by
  have hset : {t | P t} = ((ts.filter P).toFinset : Set T) := by
    ext t
    simp only [Set.mem_ofPred_eq, List.coe_toFinset, List.mem_filter, decide_eq_true_eq]
    exact ⟨fun h => ⟨hmem t h, h⟩, fun h => h.2⟩
  rw [hset, Set.ncard_coe_finset, List.toFinset_card_of_nodup (hn.filter _),
    List.countP_eq_length_filter]

omit [DecidableEq T] in
theorem countP_or_add_countP_and {P Q : T → Prop} [DecidablePred P] [DecidablePred Q]
    (ts : List T) : ts.countP (fun t => P t ∨ Q t) + ts.countP (fun t => P t ∧ Q t) =
      ts.countP P + ts.countP Q := by
  induction ts with
  | nil => rfl
  | cons t ts ih =>
    simp only [List.countP_cons, decide_eq_true_eq]
    by_cases hP : P t <;> by_cases hQ : Q t <;>
      simp only [hP, hQ, or_true, or_false, and_true, and_false, if_true, if_false] <;> omega

/-- A condition on the owner of a mutex holds of one thread or of none. -/
theorem countP_owner {P : T → Prop} [DecidablePred P] {ts : List T} {o : Option T}
    (hn : ts.Nodup) (hmem : ∀ t, o = some t → t ∈ ts) :
    ts.countP (fun t => o = some t ∧ P t) = if ∃ t, o = some t ∧ P t then 1 else 0 := by
  split_ifs with hex
  · obtain ⟨u, rfl, hP⟩ := hex
    have hcount : ts.countP (fun t => some u = some t ∧ P t) = ts.countP (· = u) := by
      refine List.countP_congr fun t _ => ?_
      simp only [Option.some.injEq, decide_eq_true_eq]
      constructor
      · rintro ⟨rfl, -⟩
        rfl
      · rintro rfl
        exact ⟨rfl, hP⟩
    rw [hcount]
    exact List.count_eq_one_of_mem hn (hmem u rfl)
  · exact List.countP_eq_zero.mpr fun t _ ht => hex ⟨t, by simpa using ht⟩

/-- **What a record counts**: the threads between `before_lock` and `after_unlock`, and the
owner once more while it waits for its own mutex. -/
theorem Matched.users_eq (h : Matched acts s) (hi : Inv s) (m : M) :
    s.users m = ({t | 0 < pending acts t m}.ncard : ℤ) +
      if ∃ t, s.owner m = some t ∧ s.pc t = .acquiring m then 1 else 0 := by
  set ts := s.graph.vertexList.map Vertex.tid with hts
  have hset : {t | 0 < pending acts t m} = {t | s.owner m = some t ∨ (s.pc t).Uses m} := by
    ext t
    simp only [Set.mem_ofPred_eq, h.calls]
    by_cases ho : s.owner m = some t <;> by_cases hu : (s.pc t).Uses m <;> simp [ho, hu]
  have howner : ∀ t, s.owner m = some t → t ∈ ts := fun t ho => by
    obtain ⟨q, hq⟩ := hi.owning t m ho
    exact hq.tid_mem
  have hncard : {t | s.owner m = some t ∨ (s.pc t).Uses m}.ncard =
      ts.countP fun t => s.owner m = some t ∨ (s.pc t).Uses m := by
    refine ncard_eq_countP hi.distinct.vtid fun t ht => ?_
    rcases ht with ho | hu
    · exact howner t ho
    · obtain ⟨q, hq⟩ := hi.known t hu.ne_idle
      exact hq.tid_mem
  have hboth : ts.countP (fun t => s.owner m = some t ∧ (s.pc t).Uses m) =
      if ∃ t, s.owner m = some t ∧ s.pc t = .acquiring m then 1 else 0 := by
    rw [countP_owner hi.distinct.vtid howner]
    refine if_congr (exists_congr fun t => and_congr_right fun ho => ?_) rfl rfl
    exact ⟨fun hu => hu.resolve_right fun hrel => h.released t m hrel ho, Or.inl⟩
  have hone : ts.countP (fun t => s.owner m = some t) = if s.owner m = none then 0 else 1 := by
    have hcount := countP_owner (P := fun _ => True) hi.distinct.vtid howner
    simp only [and_true] at hcount
    rw [hcount]
    cases s.owner m <;> simp
  have hsum := countP_or_add_countP_and (P := fun t => s.owner m = some t)
    (Q := fun t => (s.pc t).Uses m) ts
  rw [hboth, hone] at hsum
  rw [hset, hncard, System.users, ← hts]
  split_ifs at hsum ⊢ <;> omega

/-! ### Runs -/

/-- **The records of the detector.** -/
structure Lifetimes (acts : List (Act T M)) (s : System T M) : Prop where
  /-- A thread has one vertex at most. -/
  vertices : (s.graph.vertexList.map Vertex.tid).Nodup
  /-- A mutex has one record at most. -/
  locks : (s.graph.lockList.map ResourceLock.lock).Nodup
  /-- A record counts the threads whose `before_lock` has not been matched by an `after_unlock`,
  and the owner of the mutex twice while it waits for it. -/
  used : ∀ l ∈ s.graph.lockList, l.used = ({t | 0 < pending acts t l.lock}.ncard : ℤ) +
    if ∃ t, s.owner l.lock = some t ∧ s.pc t = .acquiring l.lock then 1 else 0
  /-- A vertex waits for a record of the list, the one of the mutex that its thread wants. -/
  waiting : ∀ v ∈ s.graph.vertexList, ∀ p, v.waitting = some p →
    ∃ l ∈ s.graph.lockList, l.ptr = p ∧ (s.pc v.tid).Wants l.lock
  /-- The assertions of `after_lock` hold. -/
  afterLock : ∀ t m, s.pc t = .acquired m → (Deadlock.afterLock s.graph t m).isSome
  /-- The assertion of `after_unlock` holds. -/
  afterUnlock : ∀ t m, s.pc t = .released m → (Deadlock.afterUnlock s.graph m).isSome

omit [DecidableEq M] in
theorem searchVertex_isSome (h : ∃ p, s.graph.VertexOf p t) :
    ∃ v, searchVertex s.graph t = some v := by
  obtain ⟨-, v, hv, -, rfl⟩ := h
  exact Option.isSome_iff_exists.mp (List.find?_isSome.mpr ⟨v, hv, by simp⟩)

omit [DecidableEq T] in
theorem searchLock_isSome (h : ∃ p, s.graph.LockOf p m) :
    ∃ l, searchLock s.graph m = some l := by
  obtain ⟨-, l, hl, -, rfl⟩ := h
  exact Option.isSome_iff_exists.mp (List.find?_isSome.mpr ⟨l, hl, by simp⟩)

theorem Inv.lifetimes (h : Inv s) (hm : Matched acts s) : Lifetimes acts s := by
  refine ⟨h.distinct.vtid, h.distinct.lmtx, fun l hl => ?_, fun v hv p hp => ?_,
    fun t m hpc => ?_, fun t m hpc => ?_⟩
  · rw [h.used l hl]
    exact hm.users_eq h l.lock
  · obtain ⟨-, ⟨l, hl, he, rfl⟩, hwants⟩ := (h.waiting v hv p).mp hp
    exact ⟨l, hl, he, hwants⟩
  · obtain ⟨v, hv⟩ := searchVertex_isSome (h.known t (by rw [hpc]; nofun))
    obtain ⟨l, hl⟩ := searchLock_isSome (h.record m (Or.inr (by rw [h.acquired t m hpc]; nofun)))
    rw [Deadlock.afterLock, hv, hl]
    rfl
  · obtain ⟨l, hl⟩ := searchLock_isSome (h.record m (Or.inl ⟨t, Or.inr hpc⟩))
    rw [Deadlock.afterUnlock, hl]
    simp only
    split_ifs <;> rfl

/-- **The records in every run**: no duplicates, exact counts, no waiting for a record that is
gone, and no failing assertion. -/
theorem run_lifetimes (h : Runs.Run Step System.init acts s) : Lifetimes acts s :=
  (inv_of_run h).lifetimes
    (h.invariant_labels matched_init fun _ _ _ _ hm hs => hm.step hs)

/-- The records of a deadlock of two threads. -/
theorem run_lifetimes_sample : ∃ s, Runs.Run Step System.init sampleActs s ∧
    Lifetimes sampleActs s := by
  obtain ⟨s, hrun, -⟩ := run_sampleActs
  exact ⟨s, hrun.unguard, run_lifetimes hrun.unguard⟩

end

/-- The one thread locks the one mutex, and then waits for the mutex that it holds. -/
def selfActs : List (Act Unit Unit) :=
  [.beforeLock () () 1000 2000, .acquire () (), .afterLock () (), .beforeLock () () 1200 2200]

/-- **A thread that is counted twice**: one thread has run `before_lock`, and the record says
two. -/
theorem used_ne_ncard_sample : ∃ s, Runs.Run Step System.init selfActs s ∧
    ∃ l ∈ s.graph.lockList, l.used = 2 ∧
      {t | 0 < pending selfActs t l.lock}.ncard = 1 := by
  have h₀ : Runs.Run Step (System.init : System Unit Unit) [] System.init := .nil
  have h₁ := h₀.snoc (i := Act.beforeLock () () 1000 2000)
    (.beforeLock rfl (by decide) (by decide) rfl)
  have h₂ := h₁.snoc (i := Act.acquire () ()) (.acquire rfl rfl)
  have h₃ := h₂.snoc (i := Act.afterLock () ()) (.afterLock rfl rfl)
  have h₄ := h₃.snoc (i := Act.beforeLock () () 1200 2200)
    (.beforeLock rfl (by decide) (by decide) rfl)
  refine ⟨_, h₄, ⟨2000, some 1000, (), 2⟩, List.mem_singleton.mpr rfl, rfl, ?_⟩
  have hset : {t | 0 < pending selfActs t ()} = {()} := by
    ext t
    exact iff_of_true (show 0 < pending selfActs () () by decide) rfl
  rw [hset]
  exact Set.ncard_singleton ()

end Deadlock

end BackendStudy
