import Mathlib.Order.Filter.AtTopBot.Basic

/-!
# While loops, run on fuel

A `while` loop of an imperative program need not end, so as a Lean function it
takes a bound on its number of rounds: `BackendStudy.Loop.run` iterates one round
of the loop until it leaves the loop or the fuel is spent. A computation *returns*
a value when every large enough amount of fuel gives that value
(`BackendStudy.Loop.Returns`), which is what a terminating loop does; the value is
then unique (`BackendStudy.Loop.Returns.unique`), and computations that return
compose (`BackendStudy.Loop.Returns.bind`).

The one induction on rounds is done here, once: `BackendStudy.Loop.returns_of_variant`
is the proof rule for a loop with an invariant and a decreasing bound.
-/

namespace BackendStudy

namespace Loop

open Filter

variable {σ α β : Type*}

/-! ### Running a loop -/

/-- Iterate one round of a loop: `.inl` goes round again, `.inr` leaves the loop
with a result, and `none` is the fuel running out. -/
def run (step : σ → σ ⊕ α) : ℕ → σ → Option α
  | 0, _ => none
  | n + 1, s => match step s with
      | .inl s' => run step n s'
      | .inr a => some a

theorem run_succ_inl {step : σ → σ ⊕ α} {s s' : σ} (h : step s = .inl s') (n : ℕ) :
    run step (n + 1) s = run step n s' := by
  simp [run, h]

theorem run_succ_inr {step : σ → σ ⊕ α} {s : σ} {a : α} (h : step s = .inr a) (n : ℕ) :
    run step (n + 1) s = some a := by
  simp [run, h]

/-- More fuel does not change the result of a loop that has ended. -/
theorem run_mono {step : σ → σ ⊕ α} {a : α} : ∀ {m n : ℕ} {s : σ}, m ≤ n →
    run step m s = some a → run step n s = some a
  | 0, _, _, _, h => by simp [run] at h
  | m + 1, 0, _, hle, _ => by omega
  | m + 1, n + 1, s, hle, h => by
    cases hs : step s with
    | inl s' =>
      rw [run_succ_inl hs] at h ⊢
      exact run_mono (by omega) h
    | inr b =>
      rw [run_succ_inr hs] at h ⊢
      exact h

/-- What a loop leaves with satisfies what its rounds preserve. -/
theorem run_induct {step : σ → σ ⊕ α} {Inv : σ → Prop} {Post : α → Prop}
    (hround : ∀ s s', Inv s → step s = .inl s' → Inv s')
    (hexit : ∀ s a, Inv s → step s = .inr a → Post a) :
    ∀ {n : ℕ} {s : σ} {a : α}, Inv s → run step n s = some a → Post a
  | 0, _, _, _, h => by simp [run] at h
  | n + 1, s, a, hs, h => by
    cases hstep : step s with
    | inl s' =>
      rw [run_succ_inl hstep] at h
      exact run_induct hround hexit (hround s s' hs hstep) h
    | inr b =>
      rw [run_succ_inr hstep, Option.some.injEq] at h
      exact h ▸ hexit s b hs hstep

/-- **Two loops that go round together**: if their rounds keep the states related, or leave
the loops with related results, the loops run alike. -/
theorem run_simulates {τ : Type*} {step : σ → σ ⊕ α} {step' : τ → τ ⊕ β} {R : σ → τ → Prop}
    {S : α → β → Prop} (h : ∀ s t, R s t → Sum.LiftRel R S (step s) (step' t)) (n : ℕ) {s : σ}
    {t : τ} (hst : R s t) : Option.Rel S (run step n s) (run step' n t) := by
  induction n generalizing s t with
  | zero => exact .none
  | succ n ih =>
    have hround := h s t hst
    rw [run, run]
    generalize step s = x, step' t = y at hround ⊢
    cases hround with
    | inl hst' => exact ih hst'
    | inr hab => exact .some hab

/-! ### Returning a value -/

/-- **A computation on fuel returns a value**: every large enough amount of fuel
gives that value. -/
def Returns (f : ℕ → Option α) (a : α) : Prop := ∀ᶠ n in atTop, f n = some a

theorem Returns.unique {f : ℕ → Option α} {a b : α} (ha : Returns f a) (hb : Returns f b) :
    a = b := by
  obtain ⟨n, hna, hnb⟩ := (ha.and hb).exists
  exact Option.some.inj (hna.symm.trans hnb)

theorem Returns.exists_fuel {f : ℕ → Option α} {a : α} (h : Returns f a) :
    ∃ n, f n = some a := h.exists

/-- A computation that needs no fuel returns at once. -/
theorem returns_pure (a : α) : Returns (fun _ => some a) a := Eventually.of_forall fun _ => rfl

theorem Returns.congr {f g : ℕ → Option α} {a : α} (h : Returns f a) (hfg : ∀ n, f n = g n) :
    Returns g a :=
  Eventually.mono h fun n hn => (hfg n).symm.trans hn

/-- **Sequential composition**: both parts run on the same fuel. -/
theorem Returns.bind {f : ℕ → Option α} {g : ℕ → α → Option β} {a : α} {b : β}
    (hf : Returns f a) (hg : Returns (fun n => g n a) b) :
    Returns (fun n => (f n).bind (g n)) b := by
  filter_upwards [hf, hg] with n hfn hgn
  rw [hfn, Option.bind_some, hgn]

theorem Returns.map {f : ℕ → Option α} {a : α} (hf : Returns f a) (g : α → β) :
    Returns (fun n => (f n).map g) (g a) := by
  filter_upwards [hf] with n hn
  rw [hn, Option.map_some]

theorem returns_run_inl {step : σ → σ ⊕ α} {s s' : σ} {a : α} (h : step s = .inl s')
    (hr : Returns (fun n => run step n s') a) : Returns (fun n => run step n s) a := by
  obtain ⟨N, hN⟩ := eventually_atTop.mp hr
  refine eventually_atTop.mpr ⟨N + 1, fun n hn => ?_⟩
  obtain ⟨m, rfl⟩ : ∃ m, n = m + 1 := ⟨n - 1, by omega⟩
  exact (run_succ_inl h m).trans (hN m (by omega))

theorem returns_run_inr {step : σ → σ ⊕ α} {s : σ} {a : α} (h : step s = .inr a) :
    Returns (fun n => run step n s) a := by
  refine eventually_atTop.mpr ⟨1, fun n hn => ?_⟩
  obtain ⟨m, rfl⟩ : ∃ m, n = m + 1 := ⟨n - 1, by omega⟩
  exact run_succ_inr h m

/-! ### Fuel does not matter -/

/-- A computation whose result does not change with more fuel. -/
def Stable (f : ℕ → Option α) : Prop := ∀ ⦃m n a⦄, m ≤ n → f m = some a → f n = some a

/-- A stable computation returns what it gives on any fuel. -/
theorem Stable.returns {f : ℕ → Option α} (h : Stable f) {n : ℕ} {a : α} (hn : f n = some a) :
    Returns f a :=
  eventually_atTop.mpr ⟨n, fun _ hm => h hm hn⟩

theorem stable_const (x : Option α) : Stable fun _ => x := fun _ _ _ _ h => h

theorem stable_run (step : σ → σ ⊕ α) (s : σ) : Stable fun n => run step n s :=
  fun _ _ _ hle h => run_mono hle h

theorem Stable.bind {f : ℕ → Option α} {g : ℕ → α → Option β} (hf : Stable f)
    (hg : ∀ a, Stable fun n => g n a) : Stable fun n => (f n).bind (g n) := by
  intro m n b hle h
  obtain ⟨a, ha, hb⟩ := Option.bind_eq_some_iff.mp h
  exact Option.bind_eq_some_iff.mpr ⟨a, hf hle ha, hg a hle hb⟩

theorem Stable.map {f : ℕ → Option α} (hf : Stable f) (g : α → β) :
    Stable fun n => (f n).map g := by
  intro m n b hle h
  obtain ⟨a, ha, rfl⟩ := Option.map_eq_some_iff.mp h
  exact Option.map_eq_some_iff.mpr ⟨a, hf hle ha, rfl⟩

theorem Stable.ite {p : Prop} [Decidable p] {f g : ℕ → Option α} (hf : Stable f) (hg : Stable g) :
    Stable fun n => if p then f n else g n := by
  by_cases hp : p
  · simpa [hp] using hf
  · simpa [hp] using hg

/-! ### Rounds that may fail -/

/-- A loop whose rounds may fail: a round that fails leaves it. -/
def checked {ε : Type*} (step : σ → Except ε (σ ⊕ α)) (s : σ) : σ ⊕ Except ε α :=
  match step s with
  | .error e => .inr (.error e)
  | .ok (.inl s') => .inl s'
  | .ok (.inr a) => .inr (.ok a)

/-- Where the rounds of a loop do not fail, it runs like the loop without the checks. -/
theorem run_checked {ε : Type*} {step : σ → σ ⊕ α} {check : σ → Except ε (σ ⊕ α)} {I : σ → Prop}
    (hround : ∀ s s', I s → step s = .inl s' → I s') (hok : ∀ s, I s → check s = .ok (step s))
    (n : ℕ) {s : σ} (hs : I s) : run (checked check) n s = (run step n s).map .ok := by
  induction n generalizing s with
  | zero => rfl
  | succ n ih =>
    rcases hstep : step s with s' | a
    · have hcheck : checked check s = .inl s' := by rw [checked, hok s hs, hstep]
      rw [run_succ_inl hcheck, run_succ_inl hstep]
      exact ih (hround s s' hs hstep)
    · have hcheck : checked check s = .inr (.ok a) := by rw [checked, hok s hs, hstep]
      rw [run_succ_inr hcheck, run_succ_inr hstep, Option.map_some]

/-- A second part of a computation on fuel that runs where the first part does not fail. -/
def andThen {ε : Type*} (x : Option (Except ε α)) (f : α → Option (Except ε β)) :
    Option (Except ε β) :=
  x.bind fun
    | .error e => some (.error e)
    | .ok a => f a

theorem Returns.andThen_ok {ε : Type*} {f : ℕ → Option (Except ε α)}
    {g : ℕ → α → Option (Except ε β)} {a : α} {r : Except ε β} (hf : Returns f (.ok a))
    (hg : Returns (fun n => g n a) r) : Returns (fun n => andThen (f n) (g n)) r :=
  hf.bind hg

theorem Returns.andThen_error {ε : Type*} {f : ℕ → Option (Except ε α)}
    {g : ℕ → α → Option (Except ε β)} {e : ε} (hf : Returns f (.error e)) :
    Returns (fun n => andThen (f n) (g n)) (.error e) :=
  hf.bind (returns_pure _)

/-- More fuel does not change what two parts come to. -/
theorem Stable.andThen {ε : Type*} {f : ℕ → Option (Except ε α)}
    {g : ℕ → α → Option (Except ε β)} (hf : Stable f) (hg : ∀ a, Stable fun n => g n a) :
    Stable fun n => andThen (f n) (g n) := by
  refine hf.bind fun r => ?_
  cases r with
  | error e => exact stable_const _
  | ok a => exact hg a

/-- A round that does not fail and goes round again. -/
theorem returns_checked_inl {ε : Type*} {step : σ → Except ε (σ ⊕ α)} {s s' : σ}
    {r : Except ε α} (h : step s = .ok (.inl s'))
    (hr : Returns (fun n => run (checked step) n s') r) :
    Returns (fun n => run (checked step) n s) r :=
  returns_run_inl (by rw [checked, h]) hr

/-- A round that leaves the loop without a failure. -/
theorem returns_checked_inr {ε : Type*} {step : σ → Except ε (σ ⊕ α)} {s : σ} {a : α}
    (h : step s = .ok (.inr a)) : Returns (fun n => run (checked step) n s) (.ok a) :=
  returns_run_inr (by rw [checked, h])

/-- A round that fails. -/
theorem returns_checked_error {ε : Type*} {step : σ → Except ε (σ ⊕ α)} {s : σ} {e : ε}
    (h : step s = .error e) : Returns (fun n => run (checked step) n s) (.error e) :=
  returns_run_inr (by rw [checked, h])

/-! ### Loops that end -/

/-- **The rule for loops.** If every round either leaves the loop in a state of
`Post` or keeps the invariant `Inv` at a smaller bound, the loop returns, and what
it returns satisfies `Post`. -/
theorem returns_of_variant {step : σ → σ ⊕ α} {Inv : ℕ → σ → Prop} {Post : α → Prop}
    (hstep : ∀ n s, Inv n s → (∃ m s', step s = .inl s' ∧ m < n ∧ Inv m s') ∨
      ∃ a, step s = .inr a ∧ Post a) :
    ∀ n s, Inv n s → ∃ a, Returns (fun k => run step k s) a ∧ Post a := by
  intro n
  induction n using Nat.strong_induction_on with
  | _ n ih =>
    intro s hs
    rcases hstep n s hs with ⟨m, s', hstep', hm, hs'⟩ | ⟨a, hstep', ha⟩
    · obtain ⟨a, hret, ha⟩ := ih m hm s' hs'
      exact ⟨a, returns_run_inl hstep' hret, ha⟩
    · exact ⟨a, returns_run_inr hstep', ha⟩

end Loop

end BackendStudy
