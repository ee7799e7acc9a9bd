import Mathlib.Logic.Basic
import Mathlib.Data.List.Induction

/-!
# Runs of a transition system

A system is a step relation `σ → ι → σ → Prop`, each step carrying a label: the
operation called, the thread that moved, the answer of the environment. A run is a
finite sequence of steps (`BackendStudy.Runs.Run`), and the two inductions on runs are
done here: what every step preserves holds at the end of a run
(`BackendStudy.Runs.Run.invariant`), and a relation to an abstract value that every step
carries along relates the end of a run to the fold of the abstract steps over its labels
(`BackendStudy.Runs.Run.simulates`).

A property that the system keeps only while its steps meet a condition is a property of
the runs of the guarded system (`BackendStudy.Runs.guard`). Where the condition is exact, these
are the runs that keep the property (`BackendStudy.Runs.run_guard_iff`).
-/

namespace BackendStudy

namespace Runs

variable {σ ι α : Type*}

/-- **A run**: the labels of its steps, in order, and the state it ends in. -/
inductive Run (step : σ → ι → σ → Prop) (s₀ : σ) : List ι → σ → Prop
  /-- Nothing has happened. -/
  | nil : Run step s₀ [] s₀
  /-- One more step. -/
  | snoc {is : List ι} {s : σ} {i : ι} {s' : σ} : Run step s₀ is s → step s i s' →
      Run step s₀ (is ++ [i]) s'

/-- The steps of a system that meet a condition on the state they are taken in. -/
def guard (ok : σ → ι → Prop) (step : σ → ι → σ → Prop) (s : σ) (i : ι) (s' : σ) : Prop :=
  ok s i ∧ step s i s'

/-- The steps of a system that come to a state with a property. -/
def keeping (P : σ → Prop) (step : σ → ι → σ → Prop) (s : σ) (i : ι) (s' : σ) : Prop :=
  step s i s' ∧ P s'

section

variable {step step' : σ → ι → σ → Prop} {s₀ s : σ} {is : List ι}

/-- **Invariance**: what holds at the start and is preserved by every step holds at the
end of every run. -/
theorem Run.invariant {Inv : σ → Prop} (h : Run step s₀ is s) (h₀ : Inv s₀)
    (hstep : ∀ s i s', Inv s → step s i s' → Inv s') : Inv s := by
  induction h with
  | nil => exact h₀
  | snoc _ hs ih => exact hstep _ _ _ ih hs

/-- Invariance, of a property that also looks at the labels of the steps so far. -/
theorem Run.invariant_labels {Inv : List ι → σ → Prop} (h : Run step s₀ is s) (h₀ : Inv [] s₀)
    (hstep : ∀ is s i s', Inv is s → step s i s' → Inv (is ++ [i]) s') : Inv is s := by
  induction h with
  | nil => exact h₀
  | snoc _ hs ih => exact hstep _ _ _ _ ih hs

/-- **Simulation**: a relation to an abstract value that every step carries along. -/
theorem Run.simulates {R : σ → α → Prop} {f : α → ι → α} {a₀ : α} (h : Run step s₀ is s)
    (h₀ : R s₀ a₀) (hstep : ∀ s a i s', R s a → step s i s' → R s' (f a i)) :
    R s (is.foldl f a₀) := by
  induction h with
  | nil => exact h₀
  | snoc _ hs ih =>
    rw [List.foldl_append]
    exact hstep _ _ _ _ ih hs

theorem run_nil_iff : Run step s₀ [] s ↔ s = s₀ := by
  constructor
  · intro h
    generalize hl : ([] : List ι) = l at h
    cases h with
    | nil => rfl
    | snoc _ _ => simp at hl
  · rintro rfl
    exact .nil

/-- The last step of a run. -/
theorem run_snoc_iff {i : ι} : Run step s₀ (is ++ [i]) s ↔ ∃ r, Run step s₀ is r ∧ step r i s := by
  constructor
  · intro h
    generalize hl : is ++ [i] = l at h
    cases h with
    | nil => simp at hl
    | snoc hrun hs =>
      obtain ⟨rfl, he⟩ := List.append_inj' hl rfl
      obtain rfl := List.cons.inj he |>.1
      exact ⟨_, hrun, hs⟩
  · rintro ⟨r, hrun, hs⟩
    exact hrun.snoc hs

theorem Run.mono (h : Run step s₀ is s) (hle : ∀ s i s', step s i s' → step' s i s') :
    Run step' s₀ is s := by
  induction h with
  | nil => exact .nil
  | snoc _ hs ih => exact ih.snoc (hle _ _ _ hs)

/-- A run of the guarded system is a run of the system. -/
theorem Run.unguard {ok : σ → ι → Prop} (h : Run (guard ok step) s₀ is s) : Run step s₀ is s :=
  h.mono fun _ _ _ hs => hs.2

/-- **When a condition on the steps is exactly what a property of steps takes**: if under an
invariant, which the steps that meet the condition keep, a step meets the condition if and only
if it has the property, the runs whose steps meet the condition are the runs whose steps have
the property. -/
theorem run_guard_iff_steps {ok : σ → ι → Prop} {Q : σ → ι → σ → Prop} {I : σ → Prop}
    (h₀ : I s₀) (hinv : ∀ s i s', I s → ok s i → step s i s' → I s')
    (hok : ∀ s i s', I s → step s i s' → (ok s i ↔ Q s i s')) :
    Run (guard ok step) s₀ is s ↔ Run (fun s i s' => step s i s' ∧ Q s i s') s₀ is s := by
  constructor
  · intro h
    suffices hrun : Run (fun s i s' => step s i s' ∧ Q s i s') s₀ is s ∧ I s from hrun.1
    induction h with
    | nil => exact ⟨.nil, h₀⟩
    | snoc _ hs ih =>
      obtain ⟨hrun, hi⟩ := ih
      exact ⟨hrun.snoc ⟨hs.2, (hok _ _ _ hi hs.2).mp hs.1⟩, hinv _ _ _ hi hs.1 hs.2⟩
  · intro h
    suffices hrun : Run (guard ok step) s₀ is s ∧ I s from hrun.1
    induction h with
    | nil => exact ⟨.nil, h₀⟩
    | snoc _ hs ih =>
      obtain ⟨hrun, hi⟩ := ih
      have hmet := (hok _ _ _ hi hs.1).mpr hs.2
      exact ⟨hrun.snoc ⟨hmet, hs.1⟩, hinv _ _ _ hi hmet hs.1⟩

/-- The same for a property of states, which each step from a state with it comes to a state with
exactly when it meets the condition. -/
theorem run_guard_iff {ok : σ → ι → Prop} {P Inv : σ → Prop} (h₀ : Inv s₀) (hP : P s₀)
    (hinv : ∀ s i s', Inv s → step s i s' → Inv s')
    (hok : ∀ s i s', Inv s → P s → step s i s' → (ok s i ↔ P s')) :
    Run (guard ok step) s₀ is s ↔ Run (keeping P step) s₀ is s :=
  run_guard_iff_steps (Q := fun _ _ s' => P s') (I := fun s => Inv s ∧ P s) ⟨h₀, hP⟩
    (fun s i s' hi hmet hs => ⟨hinv s i s' hi.1 hs, (hok s i s' hi.1 hi.2 hs).mp hmet⟩)
    fun s i s' hi hs => hok s i s' hi.1 hi.2 hs

/-- Under an invariant a stronger condition on the steps allows no other runs. -/
theorem Run.guard_mono {ok ok' : σ → ι → Prop} {Inv : σ → Prop} (h : Run (guard ok step) s₀ is s)
    (h₀ : Inv s₀) (hinv : ∀ s i s', Inv s → step s i s' → Inv s')
    (hok : ∀ s i, Inv s → ok s i → ok' s i) : Run (guard ok' step) s₀ is s := by
  suffices hrun : Run (guard ok' step) s₀ is s ∧ Inv s from hrun.1
  induction h with
  | nil => exact ⟨.nil, h₀⟩
  | snoc _ hs ih =>
    obtain ⟨hrun, hi⟩ := ih
    exact ⟨hrun.snoc ⟨hok _ _ hi hs.1, hs.2⟩, hinv _ _ _ hi hs.2⟩

/-- A run of a system whose steps are a function, by running it. -/
theorem run_of_foldlM {f : σ → ι → Option σ} (h : is.foldlM f s₀ = some s) :
    Run (fun s i s' => f s i = some s') s₀ is s := by
  induction is using List.reverseRecOn generalizing s with
  | nil =>
    obtain rfl := Option.some.inj h
    exact .nil
  | append_singleton is i ih =>
    rw [List.foldlM_append] at h
    obtain ⟨s', hs', h⟩ := Option.bind_eq_some_iff.mp h
    have hi : f s' i = some s := by simpa using h
    exact (ih hs').snoc hi

/-- A run of a guarded system whose steps are a function, with something about its end, by running
it. -/
theorem exists_run_guard {f : σ → ι → Option σ} {ok : σ → ι → Prop} [∀ s i, Decidable (ok s i)]
    {g : σ → α} {a : α}
    (h : (is.foldlM (fun s i => if ok s i then f s i else none) s₀).map g = some a) :
    ∃ s, Run (guard ok fun s i s' => f s i = some s') s₀ is s ∧ g s = a := by
  obtain ⟨s, hs, hg⟩ := Option.map_eq_some_iff.mp h
  refine ⟨s, (run_of_foldlM hs).mono fun s i s' hnext => ?_, hg⟩
  split_ifs at hnext with hok
  exact ⟨hok, hnext⟩

/-- The same of a system whose steps may fail. -/
theorem exists_run_guard_ok {ε : Type*} {f : σ → ι → Except ε σ} {ok : σ → ι → Prop}
    [∀ s i, Decidable (ok s i)] {g : σ → α} {a : α}
    (h : (is.foldlM (fun s i => if ok s i then (f s i).toOption else none) s₀).map g = some a) :
    ∃ s, Run (guard ok fun s i s' => f s i = .ok s') s₀ is s ∧ g s = a := by
  obtain ⟨s, hrun, hg⟩ := exists_run_guard h
  refine ⟨s, hrun.mono fun s i s' ⟨hok, hf⟩ => ⟨hok, ?_⟩, hg⟩
  cases he : f s i with
  | error e => simp [he, Except.toOption] at hf
  | ok r => simpa [he, Except.toOption] using hf

end

end Runs

end BackendStudy
