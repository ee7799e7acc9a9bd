import BackendStudy.ConnPool.Model
import Mathlib.Data.List.Nodup
import Mathlib.Data.List.Perm.Basic

/-!
# Every connection has one owner

A connection is free, or busy and with one client, whatever the clients do: the pool counts the
connections it has, makes no more than it may, and takes the front of the free ones only if
there is one (`BackendStudy.ConnPool.run_owned`).
-/

namespace BackendStudy

namespace ConnPool

variable {p p' : ConnPool} {o : Outcome} {conn : ℕ}

/-- **The lists of a pool**: no connection is in them twice, and all are counted. -/
structure Listed (p : ConnPool) : Prop where
  nodup : (p.freeList ++ p.busyList).Nodup
  cur : p.curConn = p.freeList.length + p.busyList.length
  bound : p.curConn ≤ max p.maxConn minConn

theorem Listed.addFree (h : Listed p) (hf : conn ∉ p.freeList) (hb : conn ∉ p.busyList)
    (hlt : p.curConn < max p.maxConn minConn) : Listed (p.addFree conn) := by
  constructor
  · rw [ConnPool.addFree, List.append_assoc, List.singleton_append, List.nodup_middle,
      List.nodup_cons, List.mem_append, not_or]
    exact ⟨⟨hf, hb⟩, h.nodup⟩
  · rw [ConnPool.addFree, List.length_append, List.length_singleton, h.cur]
    push_cast
    omega
  · rw [ConnPool.addFree]
    simp only
    omega

/-! ### The critical sections -/

/-- What a critical section of `takeConn` does: it takes the front of the free connections, or
leaves the connections alone, or nearly so. -/
inductive Taken (p : ConnPool) : ConnPool × Outcome → Prop
  /-- A free connection becomes busy. -/
  | conn {q : ConnPool} {conn : ℕ} {rest : List ℕ} : Listed q → q.freeList = conn :: rest →
      q.busyList = p.busyList →
      Taken p ({ q with freeList := rest, busyList := q.busyList ++ [conn] }, .conn conn)
  /-- Nothing is returned. -/
  | null {q : ConnPool} : Listed q → q.busyList = p.busyList → Taken p (q, .null)
  /-- The client waits. -/
  | wait : Taken p (p, .wait)

/-- The front is there to be taken. -/
theorem taken_takeFront {q : ConnPool} (h : Listed q) (hb : q.busyList = p.busyList)
    (hc : q.condition = true) : ∃ r, q.takeFront = some r ∧ Taken p r := by
  rw [takeFront]
  split_ifs with ha
  · exact ⟨_, rfl, .null h hb⟩
  · cases hl : q.freeList with
    | nil => simp [condition, hl, ha] at hc
    | cons conn rest => exact ⟨_, rfl, .conn h hl hb⟩

theorem taken_takeConn (h : Listed p) (hf : conn ∉ p.freeList) (hb : conn ∉ p.busyList)
    (ret : ℤ) : ∃ r, p.takeConn conn ret = some r ∧ Taken p r := by
  rw [takeConn]
  split_ifs with hempty hmax hc hret
  · exact taken_takeFront h rfl hc
  · exact ⟨_, rfl, .wait⟩
  · exact ⟨_, rfl, .null h rfl⟩
  · have hadd : Listed (p.addFree conn) := h.addFree hf hb (lt_max_of_lt_left (not_le.mp hmax))
    exact taken_takeFront hadd rfl (by simp [condition, addFree])
  · exact taken_takeFront h rfl (by simp [condition, hempty])

theorem taken_resume (h : Listed p) (timedOut : Bool) :
    ∃ r, p.resume timedOut = some r ∧ Taken p r := by
  rw [resume]
  split_ifs with hc ht
  · exact taken_takeFront h rfl hc
  · exact ⟨_, rfl, .null h rfl⟩
  · exact ⟨_, rfl, .wait⟩

/-! ### The invariant -/

variable {C : Type*} [DecidableEq C] {s s' : System C} {c : C} {e : Event C}

/-- **The connections of a pool and the clients that have them.** -/
structure Inv (s : System C) : Prop where
  listed : Listed s.pool
  held : s.held.map Prod.snd = s.pool.busyList

theorem Inv.ends (h : Inv s) {timeoutMs : ℤ} {r : ConnPool × Outcome} (hr : Taken s.pool r) :
    Inv (s.ends c timeoutMs r) := by
  cases hr with
  | @conn q conn rest hq hf hb =>
    have hnodup := hq.nodup
    have hcur := hq.cur
    rw [hf] at hnodup hcur
    refine ⟨⟨?_, ?_, hq.bound⟩, ?_⟩
    · have hperm : (conn :: rest ++ q.busyList).Perm (rest ++ (q.busyList ++ [conn])) := by
        rw [← List.append_assoc]
        exact (List.perm_append_singleton conn _).symm
      exact hperm.nodup_iff.mp hnodup
    · change q.curConn = (rest.length : ℤ) + ((q.busyList ++ [conn]).length : ℤ)
      rw [hcur, List.length_cons, List.length_append, List.length_singleton]
      push_cast
      omega
    · rw [System.ends, List.map_append, h.held, hb]
      rfl
  | null hq hb => exact ⟨hq, h.held.trans hb.symm⟩
  | wait => exact ⟨h.listed, h.held⟩

theorem Inv.notify (h : Inv s) (waiter : Option C) : Inv (s.notify waiter) := by
  cases waiter with
  | none => exact h
  | some c =>
    simp only [System.notify]
    split
    · exact ⟨h.listed, h.held⟩
    · exact h

omit [DecidableEq C] in
/-- A connection that is put back has no client any more. -/
theorem Inv.putConn (h : Inv s) (hput : (s.pool.putConn conn).2 = true) :
    Inv { s with
      pool := (s.pool.putConn conn).1
      held := s.held.filter (·.2 ≠ conn) } := by
  rw [ConnPool.putConn] at hput ⊢
  split_ifs at hput ⊢ with hmem
  · obtain ⟨A, B, hAB⟩ := List.append_of_mem hmem
    have hnodup := h.listed.nodup
    have hcur := h.listed.cur
    rw [hAB] at hnodup hcur
    have hne : ∀ x ∈ A ++ B, x ≠ conn := by
      rintro x hx rfl
      have hbusy := (List.nodup_append.mp hnodup).2.1
      exact (List.nodup_cons.mp (List.nodup_middle.mp hbusy)).1 hx
    have hfilter : s.pool.busyList.filter (· ≠ conn) = A ++ B := by
      rw [hAB, List.filter_append, List.filter_cons_of_neg (by simp), ← List.filter_append]
      exact List.filter_eq_self.mpr fun x hx => by simpa using hne x hx
    refine ⟨⟨?_, ?_, h.listed.bound⟩, ?_⟩
    · simp only [hfilter]
      have hperm : (s.pool.freeList ++ (A ++ conn :: B)).Perm
          (s.pool.freeList ++ [conn] ++ (A ++ B)) := by
        rw [List.append_assoc]
        exact (List.perm_middle).append_left _
      exact hperm.nodup_iff.mp hnodup
    · simp only [hfilter]
      rw [hcur]
      simp only [List.length_append, List.length_cons, List.length_nil]
      push_cast
      omega
    · rw [← h.held, List.filter_map]
      rfl

/-- **Every step keeps the invariant.** -/
theorem Inv.step (h : Inv s) (hs : Step s e s') : Inv s' := by
  cases hs with
  | @takeConn c timeoutMs conn ret r hidle hf hb hr =>
    obtain ⟨r', hr', htaken⟩ := taken_takeConn h.listed hf hb ret
    obtain rfl := Option.some.inj (hr.symm.trans hr')
    exact h.ends htaken
  | wake hwait => exact ⟨h.listed, h.held⟩
  | @resume c timeoutMs r hwoken hr =>
    obtain ⟨r', hr', htaken⟩ := taken_resume h.listed false
    obtain rfl := Option.some.inj (hr.symm.trans hr')
    exact h.ends htaken
  | @timeout c timeoutMs r hwait hms hr =>
    obtain ⟨r', hr', htaken⟩ := taken_resume h.listed true
    obtain rfl := Option.some.inj (hr.symm.trans hr')
    exact h.ends htaken
  | putConn hput hw => exact (h.putConn hput).notify _
  | @putOther conn hput =>
    have hsame : (s.pool.putConn conn).1 = s.pool := by
      rw [ConnPool.putConn] at hput ⊢
      split_ifs at hput ⊢
      rfl
    rw [hsame]
    exact h

/-! ### Runs -/

/-- A pool after `init`, however far it has come. -/
theorem listed_init (maxConn : ℤ) {made : ℕ → ℕ × ℤ}
    (hmade : (made 1).2 = 0 → (made 0).1 ≠ (made 1).1) :
    Listed ((new maxConn).init made).1 ∧ ((new maxConn).init made).1.busyList = [] := by
  have hmin : (minConn : ℤ) = 2 := rfl
  have hnew : Listed (new maxConn) := by
    refine ⟨List.nodup_nil, rfl, ?_⟩
    simp only [new, hmin]
    omega
  have hone : Listed ((new maxConn).addFree (made 1).1) := by
    refine hnew.addFree List.not_mem_nil List.not_mem_nil ?_
    simp only [new, hmin]
    omega
  simp only [init, minConn, initLoop]
  split_ifs with h₁ h₀
  · exact ⟨hnew, rfl⟩
  · exact ⟨hone, rfl⟩
  · refine ⟨hone.addFree ?_ List.not_mem_nil ?_, rfl⟩
    · simpa [addFree, new] using hmade (not_not.mp h₁)
    · simp only [addFree, new, hmin]
      omega

/-- **What holds of a pool and its clients.** -/
structure Owned (s : System C) : Prop where
  /-- No connection is free twice. -/
  free : s.pool.freeList.Nodup
  /-- No connection is busy twice. -/
  busy : s.pool.busyList.Nodup
  /-- No connection is free and busy. -/
  disjoint : s.pool.freeList.Disjoint s.pool.busyList
  /-- The connections are counted. -/
  cur : s.pool.curConn = s.pool.freeList.length + s.pool.busyList.length
  /-- There are not more than there may be. -/
  bound : s.pool.curConn ≤ max s.pool.maxConn minConn
  /-- `takeConn` finds a front where it takes it, before a wait and after it. -/
  front : (∀ conn ret, (s.pool.takeConn conn ret).isSome) ∧
    ∀ timedOut, (s.pool.resume timedOut).isSome
  /-- The clients have different connections, which are the busy ones. -/
  owner : (s.held.map Prod.snd).Nodup ∧ ∀ conn, conn ∈ s.held.map Prod.snd ↔ conn ∈ s.pool.busyList

theorem takeFront_isSome (hc : p.condition = true) : p.takeFront.isSome := by
  rw [takeFront]
  split_ifs with ha
  · rfl
  · cases hl : p.freeList with
    | nil => simp [condition, hl, ha] at hc
    | cons conn rest => rfl

theorem takeConn_isSome (p : ConnPool) (conn : ℕ) (ret : ℤ) : (p.takeConn conn ret).isSome := by
  rw [takeConn]
  split_ifs with hempty hmax hc hret
  · exact takeFront_isSome hc
  · rfl
  · rfl
  · exact takeFront_isSome (by simp [condition, addFree])
  · exact takeFront_isSome (by simp [condition, hempty])

theorem resume_isSome (p : ConnPool) (timedOut : Bool) : (p.resume timedOut).isSome := by
  rw [resume]
  split_ifs with hc ht
  · exact takeFront_isSome hc
  · rfl
  · rfl

omit [DecidableEq C] in
theorem Inv.owned (h : Inv s) : Owned s := by
  obtain ⟨hf, hb, hdisj⟩ := List.nodup_append.mp h.listed.nodup
  refine ⟨hf, hb, fun x hx hx' => hdisj x hx x hx' rfl, h.listed.cur, h.listed.bound,
    ⟨takeConn_isSome s.pool, resume_isSome s.pool⟩, ?_, ?_⟩
  · rw [h.held]
    exact hb
  · intro conn
    rw [h.held]

/-- **Every connection has one owner**, in every state that clients can bring a pool to on
which `init` has run. -/
theorem run_owned {maxConn : ℤ} {made : ℕ → ℕ × ℤ} {es : List (Event C)}
    (hmade : (made 1).2 = 0 → (made 0).1 ≠ (made 1).1)
    (h : Runs.Run Step (System.start maxConn made) es s) : Owned s := by
  obtain ⟨hlisted, hbusy⟩ := listed_init maxConn hmade
  have hstart : Inv (System.start maxConn made : System C) := ⟨hlisted, hbusy.symm⟩
  exact (h.invariant hstart fun _ _ _ hi hs => hi.step hs).owned

/-- Three clients and two connections: the third client waits, and gets what the first one puts
back. -/
theorem run_owned_sample : ∃ s : System (Fin 3),
    Runs.Run Step (System.start 2 fun n => (100 * n, 0)) [.takeConn 0 (-1) 1 0,
      .takeConn 1 (-1) 1 0, .takeConn 2 (-1) 1 0, .putConn 7 none, .putConn 100 (some 2),
      .resume 2] s ∧ s.held = [(1, 0), (2, 100)] ∧ Owned s := by
  have h₀ : Runs.Run Step (System.start 2 fun n => (100 * n, 0) : System (Fin 3)) []
      (System.start 2 fun n => (100 * n, 0)) := .nil
  have h₁ := h₀.snoc (i := Event.takeConn 0 (-1) 1 0) (.takeConn rfl (by decide) (by decide) rfl)
  have h₂ := h₁.snoc (i := Event.takeConn 1 (-1) 1 0) (.takeConn rfl (by decide) (by decide) rfl)
  have h₃ := h₂.snoc (i := Event.takeConn 2 (-1) 1 0) (.takeConn rfl (by decide) (by decide) rfl)
  have h₄ := h₃.snoc (i := Event.putConn 7 none) (.putOther rfl)
  have h₅ := h₄.snoc (i := Event.putConn 100 (some 2)) (.putConn rfl ⟨-1, rfl⟩)
  have h₆ := h₅.snoc (i := Event.resume 2) (.resume rfl rfl)
  exact ⟨_, h₆, rfl, run_owned (fun _ => by decide) h₆⟩

end ConnPool

end BackendStudy
