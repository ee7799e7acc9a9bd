import BackendStudy.ConnPool.Ownership
import Mathlib.Data.Finset.Card

/-!
# No wake-up is lost

A client waits only when no connection is free, and each connection that is put back while a
client waits has one client woken for it. Other clients may take the connection before, and the
woken one may run out of time; either way a free connection goes with a client that was coming
for it. So as long as a client is left waiting, there are no more free connections than clients
that have been notified and have not gone on yet (`BackendStudy.ConnPool.run_covered`).

A client whose wait ends on its own, or whose time is over, is not waiting and has not been
notified: it is counted on neither side.
-/

namespace BackendStudy

namespace ConnPool

variable {p : ConnPool} {r : ConnPool × Outcome} {conn : ℕ}

/-! ### What a critical section leaves free -/

/-- What is left of the free connections by a critical section of a pool that is not being
destroyed: one is gone, if there were any, and a client waits only if there are none. -/
structure Leaves (p : ConnPool) (r : ConnPool × Outcome) : Prop where
  abort : r.1.abort = false
  free : r.1.freeList.length ≤ p.freeList.length - 1
  wait : r.2 = .wait → r.1.freeList = []

theorem takeFront_leaves (ha : p.abort = false) (h : p.takeFront = some r) : Leaves p r := by
  rw [takeFront, if_neg (by simp [ha])] at h
  cases hl : p.freeList with
  | nil => simp [hl] at h
  | cons conn rest =>
    rw [hl] at h
    obtain rfl := Option.some.inj h
    exact ⟨ha, by simp [hl], by simp⟩

theorem takeConn_leaves {ret : ℤ} (ha : p.abort = false) (h : p.takeConn conn ret = some r) :
    Leaves p r := by
  rw [takeConn] at h
  split_ifs at h with hempty hmax hc hret
  · exact takeFront_leaves ha h
  · obtain rfl := Option.some.inj h
    have hnil : p.freeList = [] := List.isEmpty_iff.mp hempty
    exact ⟨ha, by simp [hnil], fun _ => hnil⟩
  · obtain rfl := Option.some.inj h
    have hnil : p.freeList = [] := List.isEmpty_iff.mp hempty
    exact ⟨ha, by simp [hnil], by simp⟩
  · -- the connection that has just been made is the only free one, and it is taken
    have hnil : p.freeList = [] := List.isEmpty_iff.mp hempty
    have hleft := takeFront_leaves (p := p.addFree conn) ha h
    have hone : (p.addFree conn).freeList.length - 1 = p.freeList.length - 1 := by
      simp [addFree, hnil]
    exact ⟨hleft.abort, hone ▸ hleft.free, hleft.wait⟩
  · exact takeFront_leaves ha h

theorem resume_leaves {timedOut : Bool} (ha : p.abort = false)
    (h : p.resume timedOut = some r) : Leaves p r := by
  rw [resume] at h
  by_cases hc : p.condition = true
  · rw [if_pos hc] at h
    exact takeFront_leaves ha h
  · have hnil : p.freeList = [] := by
      have hempty : p.freeList.isEmpty = true := by simpa [condition, ha] using hc
      exact List.isEmpty_iff.mp hempty
    rw [if_neg hc] at h
    split_ifs at h
    all_goals
      obtain rfl := Option.some.inj h
      exact ⟨ha, by simp [hnil], by simp [hnil]⟩

/-! ### The clients that have been notified -/

variable {C : Type*} [DecidableEq C]

/-- The clients that have been notified and have not gone on, after one more event. A wait that
ends on its own is no notification. -/
def Event.notified (N : Finset C) : Event C → Finset C
  | .putConn _ (some c) => insert c N
  | .resume c => N.erase c
  | .timeout c => N.erase c
  | _ => N

/-- **The clients that have been notified and have not gone on since.** -/
def notified (es : List (Event C)) : Finset C := es.foldl Event.notified ∅

variable {s s' : System C} {N : Finset C} {c : C} {e : Event C}

/-- Somebody waits, and has not been woken. -/
def System.Blocked (s : System C) : Prop := ∃ c timeoutMs, s.client c = .waiting timeoutMs

/-- **The invariant**: while somebody waits, free connections are not more than the notified
clients, which are on their way. -/
structure Covered (s : System C) (N : Finset C) : Prop where
  abort : s.pool.abort = false
  woken : ∀ c ∈ N, ∃ timeoutMs, s.client c = .woken timeoutMs
  free : s.Blocked → s.pool.freeList.length ≤ N.card

omit [DecidableEq C] in
theorem Covered.not_mem (h : Covered s N) (hc : ∀ timeoutMs, s.client c ≠ .woken timeoutMs) :
    c ∉ N := fun hm => by
  obtain ⟨timeoutMs, hw⟩ := h.woken c hm
  exact hc timeoutMs hw

/-- A client that has come to the end of a critical section of `takeConn` has taken a
connection with it, if there was one. -/
theorem Covered.ends (h : Covered s N) {timeoutMs : ℤ} (hr : Leaves s.pool r) :
    Covered (s.ends c timeoutMs r) (N.erase c) := by
  obtain ⟨q, o⟩ := r
  have hpool : (s.ends c timeoutMs (q, o)).pool = q := by cases o <;> rfl
  have hother : ∀ d, d ≠ c → (s.ends c timeoutMs (q, o)).client d = s.client d := by
    intro d hd
    cases o <;> simp [System.ends, hd]
  refine ⟨by rw [hpool]; exact hr.abort, ?_, ?_⟩
  · intro d hd
    obtain ⟨hne, hm⟩ := Finset.mem_erase.mp hd
    rw [hother d hne]
    exact h.woken d hm
  · rintro ⟨d, t, hd⟩
    rw [hpool]
    by_cases hne : d = c
    · -- the client that has just gone on is the one that waits
      have hwait : o = .wait := by
        subst hne
        cases o <;> simp [System.ends] at hd ⊢
      rw [show q.freeList = [] from hr.wait hwait]
      exact Nat.zero_le _
    · have hbefore : s.Blocked := ⟨d, t, (hother d hne).symm.trans hd⟩
      calc q.freeList.length ≤ s.pool.freeList.length - 1 := hr.free
        _ ≤ N.card - 1 := Nat.sub_le_sub_right (h.free hbefore) 1
        _ ≤ (N.erase c).card := Finset.pred_card_le_card_erase

/-- A connection that is put back wakes a client for it, if any waits. -/
theorem Covered.putConn (h : Covered s N) {waiter : Option C}
    (hput : (s.pool.putConn conn).2 = true) (hw : s.CanNotify waiter) :
    Covered (({ s with
        pool := (s.pool.putConn conn).1
        held := s.held.filter (·.2 ≠ conn) } : System C).notify waiter)
      (Event.notified N (.putConn conn waiter)) := by
  have habort : (s.pool.putConn conn).1.abort = false := by
    rw [ConnPool.putConn]
    split_ifs <;> exact h.abort
  have hfree : (s.pool.putConn conn).1.freeList.length = s.pool.freeList.length + 1 := by
    rw [ConnPool.putConn] at hput ⊢
    split_ifs at hput ⊢
    simp
  cases waiter with
  | none =>
    refine ⟨habort, h.woken, ?_⟩
    rintro ⟨d, t, hd⟩
    exact absurd hd (hw d t)
  | some c =>
    obtain ⟨t, ht⟩ := hw
    have hnot : c ∉ N := h.not_mem fun t' ht' => by simp [ht] at ht'
    simp only [System.notify, ht, Event.notified]
    refine ⟨habort, ?_, ?_⟩
    · intro d hd
      by_cases hne : d = c
      · exact ⟨t, by simp [hne]⟩
      · obtain ⟨t', ht'⟩ := h.woken d (Finset.mem_of_mem_insert_of_ne hd hne)
        exact ⟨t', by simp [hne, ht']⟩
    · rintro -
      rw [Finset.card_insert_of_notMem hnot]
      simp only [hfree]
      exact Nat.succ_le_succ (h.free ⟨c, t, ht⟩)

/-- **Every step keeps the invariant.** -/
theorem Covered.step (h : Covered s N) (hs : Step s e s') : Covered s' (e.notified N) := by
  cases hs with
  | @takeConn c timeoutMs conn ret r hidle hf hb hr =>
    have hnot : c ∉ N := h.not_mem fun t ht => by simp [hidle] at ht
    have hends := @Covered.ends _ _ _ _ _ c h timeoutMs (takeConn_leaves h.abort hr)
    rw [Finset.erase_eq_of_notMem hnot] at hends
    exact hends
  | @wake c timeoutMs hwait =>
    have hnot : c ∉ N := h.not_mem fun t ht => by simp [hwait] at ht
    refine ⟨h.abort, ?_, ?_⟩
    · intro d hd
      have hne : d ≠ c := fun he => hnot (he ▸ hd)
      simp only [ne_eq, hne, not_false_eq_true, Function.update_of_ne]
      exact h.woken d hd
    · rintro ⟨d, t, hd⟩
      by_cases hne : d = c
      · simp [hne] at hd
      · exact h.free ⟨d, t, by simpa [hne] using hd⟩
  | resume hwoken hr => exact h.ends (resume_leaves h.abort hr)
  | timeout hwait hms hr => exact h.ends (resume_leaves h.abort hr)
  | putConn hput hw => exact h.putConn hput hw
  | @putOther conn hput =>
    have hsame : (s.pool.putConn conn).1 = s.pool := by
      rw [ConnPool.putConn] at hput ⊢
      split_ifs at hput ⊢
      rfl
    rw [hsame]
    exact h

/-! ### Runs -/

omit [DecidableEq C] in
theorem covered_start (maxConn : ℤ) (made : ℕ → ℕ × ℤ) :
    Covered (System.start maxConn made : System C) ∅ := by
  refine ⟨?_, by simp, ?_⟩
  · simp only [System.start, init, minConn, initLoop]
    split_ifs <;> rfl
  · rintro ⟨c, t, hc⟩
    simp [System.start] at hc

/-- **No wake-up is lost**, in every state that clients can bring a pool to on which `init` has
run: while a client waits that has not been notified, no more connections are free than clients
are on their way that have been. -/
theorem run_covered {maxConn : ℤ} {made : ℕ → ℕ × ℤ} {es : List (Event C)} {timeoutMs : ℤ}
    (h : Runs.Run Step (System.start maxConn made) es s) (hc : s.client c = .waiting timeoutMs) :
    s.pool.freeList.length ≤ (notified es).card ∧
      ∀ d ∈ notified es, ∃ timeoutMs, s.client d = .woken timeoutMs := by
  have hcov : Covered s (notified es) :=
    h.simulates (covered_start maxConn made) fun _ _ _ _ hcov hs => hcov.step hs
  exact ⟨hcov.free ⟨c, timeoutMs, hc⟩, hcov.woken⟩

/-- Four clients and two connections: the third and the fourth wait, and one of them is notified
of what the first puts back, which is still free. -/
theorem run_covered_sample : ∃ s : System (Fin 4), ∃ es,
    Runs.Run Step (System.start 2 fun n => (100 * n, 0)) es s ∧ s.client 3 = .waiting 50 ∧
      s.pool.freeList.length = 1 ∧ s.pool.freeList.length ≤ (notified es).card := by
  have h₀ : Runs.Run Step (System.start 2 fun n => (100 * n, 0) : System (Fin 4)) []
      (System.start 2 fun n => (100 * n, 0)) := .nil
  have h₁ := h₀.snoc (i := Event.takeConn 0 (-1) 1 0) (.takeConn rfl (by decide) (by decide) rfl)
  have h₂ := h₁.snoc (i := Event.takeConn 1 (-1) 1 0) (.takeConn rfl (by decide) (by decide) rfl)
  have h₃ := h₂.snoc (i := Event.takeConn 2 (-1) 1 0) (.takeConn rfl (by decide) (by decide) rfl)
  have h₄ := h₃.snoc (i := Event.takeConn 3 50 1 0) (.takeConn rfl (by decide) (by decide) rfl)
  have h₅ := h₄.snoc (i := Event.putConn 100 (some 2)) (.putConn rfl ⟨-1, rfl⟩)
  exact ⟨_, _, h₅, rfl, rfl, (@run_covered _ _ _ 3 _ _ _ 50 h₅ rfl).1⟩

end ConnPool

end BackendStudy
