import BackendStudy.Lib.Chain
import Mathlib.Data.List.Perm.Subperm
import Mathlib.Data.List.TakeWhile

/-!
# Cycles of links

Where every node has at most one link, following links from a node ends, or comes back to a
node it has met and goes round from there on. The search of `BackendStudy.Walk.search` marks
the nodes it meets and stops at the first one that is marked, so in a finite graph it finds
the cycle that a node leads into, or follows the links to their end
(`BackendStudy.Walk.returns_search`).

So the links of a node of a finite graph end or come to a cycle, and not both
(`BackendStudy.Walk.ends_or_circles`, `BackendStudy.Walk.Circles.not_ends`).

To find any cycle, a pass searches from one node after the other and leaves out the nodes a
search without a result has met (`BackendStudy.Walk.pass`). These nodes lead to the end as
well, so nothing is lost: the pass finds a cycle exactly if there is one
(`BackendStudy.Walk.returns_pass`, `BackendStudy.Walk.Cycle.not_ends`). A cycle that has been
found is listed by going round once (`BackendStudy.Walk.returns_goRound`).

From a link into a finite graph the way is a chain that ends, or a tail that leads into a loop
(`BackendStudy.Walk.Lasso`, `BackendStudy.Walk.list_or_lasso`), and the nodes of either are the
ones that can be reached (`BackendStudy.Walk.reaches_iff_mem`).
-/

namespace BackendStudy

namespace Walk

open Chain

variable {α : Type*}

/-- **A cycle of links**: from `a` through `l` back to `a`. -/
def Cycle (next : α → Option α) (a : α) (l : List α) : Prop :=
  Path next (some a) (a :: l) (some a)

/-- The links from `a` come to an end. -/
def Ends (next : α → Option α) (a : α) : Prop := ∃ l, Path next (some a) l none

/-- **The links from `a` come to a cycle.** -/
def Circles (next : α → Option α) (a : α) : Prop :=
  ∃ A b l, Path next (some a) A (some b) ∧ Cycle next b l

section

variable {next : α → Option α} {a b : α} {l : List α}

/-- What a node on a path to the end leads to. -/
theorem ends_of_mem {p : Option α} (h : Path next p l none) (ha : a ∈ l) : Ends next a := by
  obtain ⟨A, B, rfl⟩ := List.append_of_mem ha
  obtain ⟨m, -, hm⟩ := path_append.mp h
  obtain ⟨rfl, hB⟩ := hm
  exact ⟨a :: B, rfl, hB⟩

/-- Every node on a path has a link to the next one, or to what comes after. -/
theorem next_of_mem {p q : Option α} (h : Path next p l q) (ha : a ∈ l) :
    (∃ b ∈ l, next a = some b) ∨ next a = q := by
  obtain ⟨A, B, rfl⟩ := List.append_of_mem ha
  obtain ⟨m, -, -, hB⟩ := path_append.mp h
  cases B with
  | nil => exact Or.inr hB
  | cons b B => exact Or.inl ⟨b, by simp, hB.1⟩

/-- A cycle goes on from each of its nodes to one of its nodes. -/
theorem Cycle.next_of_mem (h : Cycle next a l) (hb : b ∈ a :: l) :
    ∃ c ∈ a :: l, next b = some c := by
  rcases Walk.next_of_mem h hb with hc | hc
  · exact hc
  · exact ⟨a, List.mem_cons_self, hc⟩

/-- **A cycle seen under other names**, its links being links there. -/
theorem Cycle.map {β : Type*} {next' : β → Option β} (f : α → β) (h : Cycle next a l)
    (hf : ∀ b ∈ a :: l, ∀ c ∈ a :: l, next b = some c → next' (f b) = some (f c)) :
    Cycle next' (f a) (l.map f) := by
  have hpath : ∀ (m : List α) (p : Option α), (∀ b ∈ m, b ∈ a :: l) → Path next p m (some a) →
      Path next' (p.map f) (m.map f) (some (f a)) := by
    intro m
    induction m with
    | nil =>
      rintro p - hp
      rw [hp]
      rfl
    | cons b m ih =>
      rintro p hsub ⟨rfl, hm⟩
      have hrec := ih (next b) (fun c hc => hsub c (List.mem_cons_of_mem _ hc)) hm
      obtain ⟨c, hc, hbc⟩ := h.next_of_mem (hsub b List.mem_cons_self)
      refine ⟨rfl, ?_⟩
      rw [hf b (hsub b List.mem_cons_self) c hc hbc]
      rwa [hbc] at hrec
  exact hpath (a :: l) (some a) (fun b hb => hb) h

/-- **The links of a node on a cycle do not end.** -/
theorem Cycle.not_ends (h : Cycle next a l) : ¬Ends next a := by
  rintro ⟨m, hm⟩
  -- going round once more gives a longer way to the end
  have hround : Path next (some a) ((a :: l) ++ m) none := path_append.mpr ⟨_, h, hm⟩
  have hlen := congrArg List.length (hm.unique hround)
  simp only [List.length_append, List.length_cons] at hlen
  omega

/-- A chain that ends does so from every link it leads to. -/
theorem ends_of_path {p : Option α} {A : List α} (hp : Path next p A (some b))
    (hl : Path next p l none) : Ends next b := by
  induction A generalizing p l with
  | nil =>
    obtain rfl := hp
    exact ⟨l, hl⟩
  | cons c A ih =>
    obtain ⟨rfl, hA⟩ := hp
    rcases l with _ | ⟨d, l⟩
    · exact absurd hl (by simp)
    · obtain rfl := Option.some.inj hl.1
      exact ih hA hl.2

/-- Links that come to a cycle do not end. -/
theorem Circles.not_ends (h : Circles next a) : ¬Ends next a := by
  obtain ⟨A, b, l, hp, hcycle⟩ := h
  rintro ⟨m, hm⟩
  exact hcycle.not_ends (ends_of_path hp hm)

end

/-! ### Where links lead -/

/-- Links lead to a node. -/
def Reaches (next : α → Option α) (p : Option α) (a : α) : Prop := ∃ n, follow next n p = some a

/-- **A tail that leads into a loop**, no node of which is met twice on the way. -/
def Lasso (next : α → Option α) (p : Option α) (A : List α) (c : α) (C : List α) : Prop :=
  Path next p A (some c) ∧ Cycle next c C ∧ (A ++ c :: C).Nodup

section

variable {next : α → Option α} {nodes A C l : List α} {a b c : α} {p q : Option α}

/-- Links that start among some nodes and stay there lead to no others. -/
theorem mem_of_reaches (hclosed : ∀ a ∈ nodes, ∀ b, next a = some b → b ∈ nodes)
    (hp : ∀ a, p = some a → a ∈ nodes) (h : Reaches next p a) : a ∈ nodes := by
  obtain ⟨n, hn⟩ := h
  induction n generalizing a with
  | zero => exact hp a hn
  | succ n ih =>
    rw [follow_succ'] at hn
    obtain ⟨d, hd, hda⟩ := Option.bind_eq_some_iff.mp hn
    exact hclosed d (ih hd) a hda

/-- The nodes of a path that comes to no new node are the ones that its links lead to. -/
theorem reaches_iff_mem (h : Path next p l q) (hq : ∀ b, q = some b → b ∈ l) :
    Reaches next p a ↔ a ∈ l := by
  constructor
  · refine mem_of_reaches (fun b hb c hc => ?_) fun b hb => ?_
    · rcases next_of_mem h hb with ⟨e, he, hbe⟩ | hbq
      · exact Option.some.inj (hbe.symm.trans hc) ▸ he
      · exact hq c (hbq ▸ hc)
    · cases l with
      | nil => exact hq b (h ▸ hb)
      | cons d l => exact Option.some.inj (h.1.symm.trans hb) ▸ List.mem_cons_self
  · intro ha
    obtain ⟨A, B, rfl⟩ := List.append_of_mem ha
    obtain ⟨m, hA, rfl, -⟩ := path_append.mp h
    exact ⟨A.length, hA.follow_length⟩

/-- The tail and the loop as one path. -/
theorem Lasso.path (h : Lasso next p A c C) : Path next p (A ++ c :: C) (some c) :=
  path_append.mpr ⟨_, h.1, h.2.1⟩

theorem Lasso.reaches_iff (h : Lasso next p A c C) : Reaches next p a ↔ a ∈ A ++ c :: C :=
  reaches_iff_mem h.path fun b hb => by simp [← Option.some.inj hb]

theorem reaches_iff_of_ends (h : Path next p l none) : Reaches next p a ↔ a ∈ l :=
  reaches_iff_mem h fun _ hb => absurd hb (by simp)

/-- Links that lead into a loop do not end. -/
theorem Lasso.not_ends (h : Lasso next p A c C) : ¬∃ l, Path next p l none := by
  rintro ⟨l, hl⟩
  exact h.2.1.not_ends (ends_of_path h.1 hl)

/-- Links that come to a cycle are a tail and a loop, without a node that is met twice. -/
theorem exists_lasso (hp : Path next p A (some a)) (hcycle : Cycle next a l)
    (hnodup : (a :: l).Nodup) : ∃ B c C, Lasso next p B c C := by
  induction A generalizing p with
  | nil =>
    obtain rfl := hp
    exact ⟨[], a, l, rfl, hcycle, hnodup⟩
  | cons b A ih =>
    obtain ⟨rfl, hA⟩ := hp
    obtain ⟨B, c, C, h⟩ := ih hA
    by_cases hb : b ∈ B ++ c :: C
    · -- the links come back to the first node, which is on the loop
      obtain ⟨X, Y, hXY⟩ := List.append_of_mem hb
      obtain ⟨hB, hC, hBC⟩ := h
      have hpath := path_append.mpr ⟨_, hB, hC⟩
      rw [hXY] at hpath hBC
      obtain ⟨m, hX, rfl, -⟩ := path_append.mp hpath
      refine ⟨[], b, X, rfl, ⟨rfl, hX⟩, ?_⟩
      exact (List.nodup_middle.mp hBC).sublist (List.sublist_append_left (b :: X) Y)
    · exact ⟨b :: B, c, C, ⟨rfl, h.1⟩, h.2.1, List.nodup_cons.mpr ⟨hb, h.2.2⟩⟩

end

variable [DecidableEq α]

/-- One round of the search: the state is the marked nodes and the node to look at. -/
def searchStep (next : α → Option α) : List α × α → (List α × α) ⊕ (Option α × List α)
  | (visited, v) =>
    if v ∈ visited then .inr (some v, visited)
    else
      match next v with
      | some w => .inl (v :: visited, w)
      | none => .inr (none, v :: visited)

/-- The search from a node: the first node met twice, and the marked nodes. -/
def search (next : α → Option α) (fuel : ℕ) (v : α) : Option (Option α × List α) :=
  Loop.run (searchStep next) fuel ([], v)

/-- A pass over the nodes: the search from the first one, and where it comes to an end the
pass over what is left behind the marked nodes. -/
def pass (next : α → Option α) : ℕ → List α → Option (Option α)
  | 0, _ => none
  | _ + 1, [] => some none
  | fuel + 1, v :: rest =>
    (search next fuel v).bind fun
      | (some a, _) => some (some a)
      | (none, visited) => pass next fuel ((v :: rest).dropWhile (· ∈ visited))

/-- More fuel does not change what a pass finds. -/
theorem stable_pass {next : α → Option α} {l : List α} : Loop.Stable fun n => pass next n l := by
  intro m n a hle h
  induction m generalizing n l with
  | zero => cases h
  | succ m ih =>
    obtain ⟨n, rfl⟩ : ∃ k, n = k + 1 := ⟨n - 1, by omega⟩
    cases l with
    | nil => exact h
    | cons v rest =>
      simp only [pass, Option.bind_eq_some_iff] at h ⊢
      obtain ⟨⟨found, visited⟩, hsearch, h⟩ := h
      refine ⟨(found, visited), Loop.run_mono (by omega) hsearch, ?_⟩
      cases found with
      | some b => exact h
      | none => exact ih (by omega) h

/-- One round of the way round a cycle: the state is the nodes listed so far and the node to
list. -/
def goRoundStep (next : α → Option α) (a : α) :
    List α × α → (List α × α) ⊕ (List α × Option α)
  | (listed, v) =>
    match next v with
    | none => .inr (listed ++ [v], none)
    | some w => if w = a then .inr (listed ++ [v], some w) else .inl (listed ++ [v], w)

/-- The way round a cycle: the nodes, and the link it stops at. -/
def goRound (next : α → Option α) (fuel : ℕ) (a : α) : Option (List α × Option α) :=
  Loop.run (goRoundStep next a) fuel ([], a)

section

variable {next : α → Option α} {nodes l : List α} {a v : α}

/-- **The search** ends in a finite graph, with a cycle or at the end of the links. -/
theorem returns_search (hclosed : ∀ a ∈ nodes, ∀ b, next a = some b → b ∈ nodes)
    (hv : v ∈ nodes) : ∃ r, Loop.Returns (fun n => search next n v) r ∧
      (r.1 = none → Path next (some v) r.2.reverse none) ∧
      ∀ a, r.1 = some a → ∃ A l, Path next (some v) A (some a) ∧ Cycle next a l ∧
        (a :: l).Nodup := by
  let Inv : ℕ → List α × α → Prop := fun n s => n + s.1.length = nodes.length + 1 ∧
    s.1.Nodup ∧ (∀ a ∈ s.1, a ∈ nodes) ∧ s.2 ∈ nodes ∧ Path next (some v) s.1.reverse (some s.2)
  refine @Loop.returns_of_variant _ _ _ Inv _ ?_ (nodes.length + 1) ([], v)
    ⟨rfl, List.nodup_nil, by simp, hv, rfl⟩
  rintro n ⟨visited, w⟩ ⟨hn, hnodup, hsub, hw, hpath⟩
  by_cases hmem : w ∈ visited
  · -- a node met twice
    refine Or.inr ⟨(some w, visited), by rw [searchStep, if_pos hmem], by simp, ?_⟩
    rintro a ha
    obtain rfl := Option.some.inj ha
    -- the nodes from where it has been met first are a cycle
    obtain ⟨A, B, hAB⟩ := List.append_of_mem (List.mem_reverse.mpr hmem)
    rw [hAB] at hpath
    obtain ⟨m, hA, hm⟩ := path_append.mp hpath
    obtain ⟨rfl, hB⟩ := hm
    refine ⟨A, B, hA, ⟨rfl, hB⟩, ?_⟩
    have hrev := List.nodup_reverse.mpr hnodup
    rw [hAB] at hrev
    exact (List.nodup_append.mp hrev).2.1
  · have hnodup' : (w :: visited).Nodup := List.nodup_cons.mpr ⟨hmem, hnodup⟩
    have hsub' : ∀ a ∈ w :: visited, a ∈ nodes := by
      intro a ha
      rcases List.mem_cons.mp ha with rfl | ha
      · exact hw
      · exact hsub a ha
    have hlen : (w :: visited).length ≤ nodes.length :=
      (List.subperm_of_subset hnodup' hsub').length_le
    rw [List.length_cons] at hlen
    cases hnext : next w with
    | none =>
      refine Or.inr ⟨(none, w :: visited), by simp [searchStep, hmem, hnext], fun _ => ?_, by simp⟩
      rw [List.reverse_cons]
      exact path_append.mpr ⟨_, hpath, rfl, hnext⟩
    | some u =>
      -- there is one more visited node, and so one node less to visit
      refine Or.inl ⟨n - 1, (w :: visited, u), by simp [searchStep, hmem, hnext], ?_, ?_, hnodup',
        hsub', hclosed w hw u hnext, ?_⟩
      · simp only at hn
        omega
      · simp only [List.length_cons] at hn ⊢
        omega
      · change Path next (some v) (w :: visited).reverse (some u)
        rw [List.reverse_cons]
        exact path_append.mpr ⟨_, hpath, rfl, hnext⟩

/-- **In a finite graph** the links of a node end or come to a cycle. -/
theorem ends_or_circles (hclosed : ∀ a ∈ nodes, ∀ b, next a = some b → b ∈ nodes)
    (hv : v ∈ nodes) : Ends next v ∨ Circles next v := by
  obtain ⟨⟨found, visited⟩, -, hend, hcycle⟩ := returns_search hclosed hv
  rcases found with _ | a
  · exact Or.inl ⟨_, hend rfl⟩
  · obtain ⟨A, l, hA, hl, -⟩ := hcycle a rfl
    exact Or.inr ⟨A, a, l, hA, hl⟩

/-- **In a finite graph** links are a chain that ends, or a tail that leads into a loop. -/
theorem list_or_lasso {p : Option α} (hclosed : ∀ a ∈ nodes, ∀ b, next a = some b → b ∈ nodes)
    (hp : ∀ a, p = some a → a ∈ nodes) :
    (∃ l, Path next p l none) ∨ ∃ A c C, Lasso next p A c C := by
  cases p with
  | none => exact Or.inl ⟨[], rfl⟩
  | some v =>
    obtain ⟨⟨found, visited⟩, -, hend, hcycle⟩ := returns_search hclosed (hp v rfl)
    rcases found with _ | a
    · exact Or.inl ⟨_, hend rfl⟩
    · obtain ⟨A, l, hA, hl, hnodup⟩ := hcycle a rfl
      exact Or.inr (exists_lasso hA hl hnodup)

omit [DecidableEq α] in
/-- The node that a search without a result has started from is marked. -/
theorem mem_of_path_reverse {visited : List α} (h : Path next (some v) visited.reverse none) :
    v ∈ visited := by
  cases hrev : visited.reverse with
  | nil => exact absurd (hrev ▸ h) (by simp)
  | cons w m =>
    rw [hrev] at h
    obtain rfl := Option.some.inj h.1
    exact List.mem_reverse.mp (hrev ▸ List.mem_cons_self)

/-- What a pass leaves out is marked. -/
theorem mem_dropWhile {visited rest : List α} (ha : a ∈ rest) (hnot : a ∉ visited) :
    a ∈ rest.dropWhile (· ∈ visited) := by
  rw [← List.takeWhile_append_dropWhile (p := fun a => decide (a ∈ visited)) (l := rest)] at ha
  rcases List.mem_append.mp ha with ha | ha
  · exact absurd (by simpa using List.mem_takeWhile_imp ha) hnot
  · exact ha

/-- **A pass** over nodes of a finite graph ends with a cycle, or the links of every node
come to an end. -/
theorem returns_pass (hclosed : ∀ a ∈ nodes, ∀ b, next a = some b → b ∈ nodes)
    (hl : ∀ a ∈ l, a ∈ nodes) : ∃ r, Loop.Returns (fun n => pass next n l) r ∧
      (r = none → ∀ a ∈ l, Ends next a) ∧
      ∀ a, r = some a → ∃ m, Cycle next a m ∧ (a :: m).Nodup := by
  induction hlen : l.length using Nat.strong_induction_on generalizing l with
  | _ k ih =>
    cases l with
    | nil =>
      refine ⟨none, Filter.eventually_atTop.mpr ⟨1, fun n hn => ?_⟩, by simp, by simp⟩
      obtain ⟨n, rfl⟩ : ∃ m, n = m + 1 := ⟨n - 1, by omega⟩
      rfl
    | cons v rest =>
      obtain ⟨⟨found, visited⟩, hsearch, hend, hcycle⟩ := returns_search hclosed (hl v (by simp))
      obtain ⟨N, hN⟩ := Filter.eventually_atTop.mp hsearch
      cases found with
      | some a =>
        refine ⟨some a, Filter.eventually_atTop.mpr ⟨N + 1, fun n hn => ?_⟩, by simp,
          fun b hb => ?_⟩
        · obtain ⟨n, rfl⟩ : ∃ m, n = m + 1 := ⟨n - 1, by omega⟩
          have hn : search next n v = some (some a, visited) := hN n (by omega)
          change pass next (n + 1) (v :: rest) = some (some a)
          rw [pass, hn]
          rfl
        · obtain rfl := Option.some.inj hb
          obtain ⟨-, l, -, hl⟩ := hcycle a rfl
          exact ⟨l, hl⟩
      | none =>
        have hpath := hend rfl
        have hmarked : ∀ a ∈ visited, Ends next a := fun a ha =>
          ends_of_mem hpath (List.mem_reverse.mpr ha)
        -- the node the search started from is marked, so the pass goes on with fewer nodes
        have hv : v ∈ visited := mem_of_path_reverse hpath
        have hdrop : (v :: rest).dropWhile (· ∈ visited) = rest.dropWhile (· ∈ visited) := by
          rw [List.dropWhile_cons_of_pos (by simpa using hv)]
        have hsub : rest.dropWhile (· ∈ visited) <:+ rest := List.dropWhile_suffix _
        obtain ⟨r, hret, hnone, hsome⟩ := ih (rest.dropWhile (· ∈ visited)).length
          (by
            have := hsub.length_le
            rw [← hlen, List.length_cons]
            omega)
          (fun a ha => hl a (List.mem_cons_of_mem _ (hsub.subset ha))) rfl
        obtain ⟨M, hM⟩ := Filter.eventually_atTop.mp hret
        refine ⟨r, Filter.eventually_atTop.mpr ⟨max N M + 1, fun n hn => ?_⟩, fun hr a ha => ?_,
          hsome⟩
        · obtain ⟨n, rfl⟩ : ∃ m, n = m + 1 := ⟨n - 1, by omega⟩
          have hn : search next n v = some (none, visited) := hN n (by omega)
          change pass next (n + 1) (v :: rest) = some r
          rw [pass, hn]
          simp only [Option.bind_some, hdrop]
          exact hM n (by omega)
        · by_cases hmem : a ∈ visited
          · exact hmarked a hmem
          · rcases List.mem_cons.mp ha with rfl | ha
            · exact absurd hv hmem
            · exact hnone hr a (mem_dropWhile ha hmem)

/-- **Going round a cycle** lists its nodes once and stops where it started. -/
theorem returns_goRound (h : Cycle next a l) (hnodup : (a :: l).Nodup) :
    Loop.Returns (fun n => goRound next n a) (a :: l, some a) := by
  have hround : ∀ (m listed : List α) (v : α), Path next (some v) (v :: m) (some a) → a ∉ m →
      Loop.Returns (fun n => Loop.run (goRoundStep next a) n (listed, v))
        (listed ++ v :: m, some a) := by
    intro m
    induction m with
    | nil =>
      intro listed v hp _
      have hnext : next v = some a := hp.2
      exact Loop.returns_run_inr (by simp [goRoundStep, hnext])
    | cons w m ih =>
      intro listed v hp ha
      obtain ⟨-, hnext, hm⟩ := hp
      rw [List.mem_cons, not_or] at ha
      have hrec := ih (listed ++ [v]) w ⟨rfl, hm⟩ ha.2
      rw [List.append_assoc] at hrec
      exact Loop.returns_run_inl (by simp [goRoundStep, hnext, Ne.symm ha.1]) hrec
  exact hround l [] a h (List.nodup_cons.mp hnodup).1

end

end Walk

end BackendStudy
