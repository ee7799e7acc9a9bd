import BackendStudy.ThreadPool.Size

/-!
# Waiting for the tasks to be done

`waitForAllRuningTaskDone` blocks its caller on a condition variable of its own, under a mutex
of its own, and looks at nothing before it does. A thread that has done its task and finds no
other one in the queue notifies whoever is blocked there
(`BackendStudy.ThreadPool.callersAfter`).

A caller that is blocked while the pool has a task is therefore notified at last by the
thread that ends the last one. A caller that comes when the pool has none is not
(`BackendStudy.ThreadPool.not_noIdleCaller_sample`), and such a call is the only way to be blocked
on an idle pool (`BackendStudy.ThreadPool.run_noIdleCaller_iff`).
-/

namespace BackendStudy

namespace ThreadPool

variable {α C : Type*}

/-- Where a caller is. -/
inductive CallerState
  /-- Outside of `waitForAllRuningTaskDone`. -/
  | away
  /-- It waits on `m_notask_cond`. -/
  | blocked
  /-- It has been notified, and has not returned yet. -/
  | notified
  deriving DecidableEq

/-- A pool in use, and the callers of `waitForAllRuningTaskDone`. -/
structure Served (C α : Type*) where
  /-- The pool. -/
  system : System α
  /-- The callers. -/
  caller : C → CallerState

/-- What happens to a pool and its callers. -/
inductive ServedEvent (C α : Type*)
  /-- A step of the pool. -/
  | use (e : Event α)
  /-- `waitForAllRuningTaskDone` is called. -/
  | waitForAllRuningTaskDone (c : C)
  /-- The wait of a caller ends on its own. -/
  | wakeCaller (c : C)
  /-- A caller that has been notified returns. -/
  | returns (c : C)

/-- `notify_all` on `m_notask_cond`. -/
def notifyAll (caller : C → CallerState) (c : C) : CallerState :=
  if caller c = .blocked then .notified else caller c

/-- The callers after a step of the pool: a thread that has done its task notifies them if no
task is queued. -/
def callersAfter (p : ThreadPool α) (caller : C → CallerState) : Event α → C → CallerState
  | .taskDone _ => if p.endTask.taskList = [] then notifyAll caller else caller
  | _ => caller

namespace Served

/-- A pool after `init`, and callers that have not called yet. -/
def initialised (maxThreadNum : ℤ) : Served C α where
  system := System.initialised maxThreadNum
  caller := fun _ => .away

variable [DecidableEq C]

/-- **One step of a pool and its callers.** -/
inductive Step : Served C α → ServedEvent C α → Served C α → Prop
  /-- A step of the pool. -/
  | use {s : Served C α} {e : Event α} {r : System α} : System.Use s.system e r →
      Step s (.use e) ⟨r, callersAfter s.system.pool s.caller e⟩
  /-- A caller blocks, whatever the pool is doing. -/
  | waitForAllRuningTaskDone {s : Served C α} {c : C} : s.caller c = .away →
      Step s (.waitForAllRuningTaskDone c)
        { s with caller := Function.update s.caller c .blocked }
  /-- The wait of a caller ends on its own. -/
  | wakeCaller {s : Served C α} {c : C} : s.caller c = .blocked →
      Step s (.wakeCaller c) { s with caller := Function.update s.caller c .notified }
  /-- A caller returns. -/
  | returns {s : Served C α} {c : C} : s.caller c = .notified →
      Step s (.returns c) { s with caller := Function.update s.caller c .away }

end Served

/-- A task is queued, or a thread runs one. -/
def AtWork (p : ThreadPool α) : Prop := p.taskList ≠ [] ∨ running p ≠ []

/-- **No caller is blocked on an idle pool.** -/
def NoIdleCaller (s : Served C α) : Prop :=
  ∀ c, s.caller c = .blocked → AtWork s.system.pool

/-- The condition on a call: it comes while a task is queued or a thread runs one. -/
def CalledAtWork (s : Served C α) : ServedEvent C α → Prop
  | .waitForAllRuningTaskDone _ => AtWork s.system.pool
  | _ => True

/-! ### The pool stays at work -/

section

variable {p : ThreadPool α} {t : ℕ} {th : Thread α}

/-- A thread that goes from one thing to another without a task leaves the others at work. -/
theorem AtWork.setState (h : AtWork p) (hn : Numbered p) (hth : p.thread t = some th)
    (hnone : th.state.task? = none) (state : ThreadState α) : AtWork (p.setState t state) := by
  refine h.imp id fun hrun hempty => ?_
  have hperm := running_setState hn hth state
  rw [hnone, hempty] at hperm
  have hlength := hperm.length_eq
  simp only [Option.toList_none, List.append_nil, List.length_nil, List.length_append] at hlength
  exact hrun (List.eq_nil_of_length_eq_zero (by omega))

theorem AtWork.removeThread (hn : Numbered p) (hth : p.thread t = some th)
    (h : p.taskList ≠ [] ∨ th.state.task? = none ∧ running p ≠ []) :
    AtWork (p.removeThread t) := by
  refine h.imp id fun ⟨hnone, hrun⟩ hempty => hrun ?_
  have hperm := running_removeThread hn hth
  rw [hnone, hempty] at hperm
  exact hperm.nil_eq.symm

/-- A thread in its loop takes a task if there is one, so that the pool stays at work. -/
theorem AtWork.threadLoop (hn : Numbered p) (hth : p.thread t = some th)
    (h : p.taskList ≠ [] ∨ th.state.task? = none ∧ running p ≠ []) :
    AtWork (p.threadLoop t) := by
  rcases threadLoop_cases hth with ⟨-, he⟩ | ⟨-, hl, he⟩ | ⟨-, task, rest, -, he⟩
  · exact he ▸ AtWork.removeThread hn hth h
  · obtain ⟨hnone, hrun⟩ := h.resolve_left fun hne => hne hl
    exact he ▸ AtWork.setState (Or.inr hrun) hn hth hnone .blocked
  · obtain ⟨hmem, hnum⟩ := mem_of_thread hth
    set q : ThreadPool α := { p with taskList := rest, busyThdNum := p.busyThdNum + 1 } with hq
    have hruns : task ∈ running (q.setState t (.running task)) :=
      List.mem_filterMap.mpr ⟨_, mem_setState.mpr ⟨th, hmem, rfl⟩, by rw [if_pos hnum]; rfl⟩
    rw [he]
    refine Or.inr ?_
    rw [(sameTasks_activeSomeThread (q.setState t (.running task))).running]
    exact List.ne_nil_of_mem hruns

theorem AtWork.acceptATask (p : ThreadPool α) (task : α) (waiter : Option ℕ) :
    AtWork (p.acceptATask task waiter) := by
  refine Or.inl ?_
  cases waiter with
  | none => exact List.append_ne_nil_of_right_ne_nil _ (List.cons_ne_nil _ _)
  | some w => exact List.append_ne_nil_of_right_ne_nil _ (List.cons_ne_nil _ _)

/-- **A step of a pool at work** leaves it at work, or notifies the callers. -/
theorem atWork_step {s : System α} {e : Event α} {r : System α} {n : ℤ} (hu : Used n s)
    (hs : System.Use s e r) (h : AtWork s.pool) :
    AtWork r.pool ∨ ∃ t, e = .taskDone t ∧ s.pool.endTask.taskList = [] := by
  obtain ⟨-, hcases⟩ := System.use_cases hu.alive hs
  rcases hcases with ⟨task, waiter, -, -, he⟩ | ⟨t, th, -, hth, hstate, he⟩ |
    ⟨t, th, task, rfl, hth, -, he⟩ | ⟨t, th, -, hth, hb, he⟩
  · exact Or.inl (he ▸ AtWork.acceptATask s.pool task waiter)
  · have hnone : th.state.task? = none := by
      rcases hstate with hstate | hstate <;> rw [hstate] <;> rfl
    exact Or.inl (he ▸ AtWork.threadLoop hu.inv.numbered hth
      (h.imp_right fun hrun => ⟨hnone, hrun⟩))
  · by_cases hempty : s.pool.endTask.taskList = []
    · exact Or.inr ⟨t, rfl, hempty⟩
    · obtain ⟨u, hu', -⟩ := hu.inv.numbered.thread_endTask hth
      exact Or.inl (he ▸ AtWork.threadLoop hu.inv.numbered.endTask hu' (Or.inl hempty))
  · have hnone : th.state.task? = none := by rw [hb]; rfl
    exact Or.inl (he ▸ h.setState hu.inv.numbered hth hnone .woken)

end

/-! ### Runs -/

section

variable {s s' : Served C α} {e : ServedEvent C α} {caller : C → CallerState} {c : C} {n : ℤ}

theorem notifyAll_ne_blocked (caller : C → CallerState) (c : C) :
    notifyAll caller c ≠ .blocked := by
  rw [notifyAll]
  split_ifs with hb
  · nofun
  · exact hb

/-- A caller that is blocked after a step of the pool was blocked before. -/
theorem blocked_of_callersAfter {p : ThreadPool α} {e : Event α}
    (h : callersAfter p caller e c = .blocked) : caller c = .blocked := by
  cases e with
  | taskDone t =>
    rw [callersAfter] at h
    split_ifs at h
    · exact absurd h (notifyAll_ne_blocked caller c)
    · exact h
  | _ => exact h

variable [DecidableEq C]

theorem used_step (h : Used n s.system) (hs : Served.Step s e s') : Used n s'.system := by
  cases hs with
  | use huse => exact h.step huse
  | _ => exact h

/-- **A step meets the condition exactly if it leaves no caller blocked on an idle pool.** -/
theorem calledAtWork_iff (hu : Used n s.system) (h : NoIdleCaller s) (hs : Served.Step s e s') :
    CalledAtWork s e ↔ NoIdleCaller s' := by
  cases hs with
  | @use e r huse =>
    refine iff_of_true trivial fun c hc => ?_
    rcases atWork_step hu huse (h c (blocked_of_callersAfter hc)) with hwork | ⟨t, rfl, hempty⟩
    · exact hwork
    · simp only [callersAfter, if_pos hempty] at hc
      exact absurd hc (notifyAll_ne_blocked s.caller c)
  | @waitForAllRuningTaskDone c hc =>
    refine ⟨fun hwork _ _ => hwork, fun hno => hno c ?_⟩
    exact Function.update_self c _ _
  | @wakeCaller c hc =>
    refine iff_of_true trivial fun d hd => h d ?_
    by_cases hdc : d = c
    · rw [hdc]
      exact hc
    · simpa [Function.update_of_ne hdc] using hd
  | @returns c hc =>
    refine iff_of_true trivial fun d hd => h d ?_
    by_cases hdc : d = c
    · subst hdc
      simp at hd
    · simpa [Function.update_of_ne hdc] using hd

/-- **The runs in which no caller is ever blocked on an idle pool** are those in which every
`waitForAllRuningTaskDone` is called while a task is queued or a thread runs one. -/
theorem run_noIdleCaller_iff (maxThreadNum : ℤ) (es : List (ServedEvent C α)) (s : Served C α) :
    Runs.Run (Runs.guard CalledAtWork Served.Step) (Served.initialised maxThreadNum) es s ↔
      Runs.Run (Runs.keeping NoIdleCaller Served.Step) (Served.initialised maxThreadNum) es s := by
  refine @Runs.run_guard_iff _ _ Served.Step _ s es CalledAtWork NoIdleCaller
    (fun s => Used maxThreadNum s.system) (used_initialised maxThreadNum) ?_
    (fun _ _ _ hu hs => used_step hu hs) fun _ _ _ hu hno hs => calledAtWork_iff hu hno hs
  exact fun _ hc => absurd hc (by nofun)

/-- **A caller that is too late**: the one task is accepted, taken and done before
`waitForAllRuningTaskDone` is called, and nothing is left that would notify the caller. -/
theorem not_noIdleCaller_sample : ∃ s : Served Unit ℕ,
    Runs.Run Served.Step (Served.initialised 20)
      [.use (.acceptATask 1 none), .use (.getMutex 0), .use (.taskDone 0),
        .waitForAllRuningTaskDone ()] s ∧
      s.caller () = .blocked ∧ ¬NoIdleCaller s := by
  have h₀ : Runs.Run Served.Step (Served.initialised 20 : Served Unit ℕ) []
      (Served.initialised 20) := .nil
  have h₁ := h₀.snoc (i := ServedEvent.use (.acceptATask 1 none))
    (.use ⟨trivial, .acceptATask nofun ⟨by decide, nofun⟩⟩)
  have h₂ := h₁.snoc (i := ServedEvent.use (.getMutex 0))
    (.use ⟨trivial, .getMutex rfl (Or.inl rfl)⟩)
  have h₃ := h₂.snoc (i := ServedEvent.use (.taskDone 0)) (.use ⟨trivial, .taskDone rfl rfl⟩)
  have h₄ := h₃.snoc (i := ServedEvent.waitForAllRuningTaskDone ()) (.waitForAllRuningTaskDone rfl)
  refine ⟨_, h₄, rfl, fun hno => ?_⟩
  rcases hno () rfl with hqueued | hrun
  · exact hqueued rfl
  · exact hrun rfl

end

end ThreadPool

end BackendStudy
