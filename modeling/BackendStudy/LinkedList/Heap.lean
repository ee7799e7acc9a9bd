import BackendStudy.LinkedList.Model
import BackendStudy.Lib.Slots
import BackendStudy.Lib.Walk

/-!
# Heaps of list nodes

A heap is a finite memory whose nodes have links to nodes or null
(`BackendStudy.LinkedList.Heap`), and a pointer into it is null or the address of a node. The
links of a memory are a function from addresses to pointers
(`BackendStudy.LinkedList.Memory.links`), so what is known of chains of links applies: from a
pointer into a heap the links are a list that ends, or a tail that leads into a loop
(`BackendStudy.LinkedList.Heap.list_or_lasso`).

The constructor builds heaps from heaps (`BackendStudy.LinkedList.heap_of_myLink`).
-/

namespace BackendStudy

namespace LinkedList

open Chain Slots Walk

variable {P : Type}

namespace Memory

/-- The links of the nodes that are there. -/
def links (m : Memory P) (p : P) : Option P := (m.node p).bind LinkNode.next

/-- A pointer that is null or the address of a node. -/
def Pointer (m : Memory P) (h : Option P) : Prop := ∀ p, h = some p → (m.node p).isSome

section

variable {m : Memory P} {h : Option P} {p : P} {n : LinkNode P}

theorem pointer_none : m.Pointer none := fun _ h => absurd h (by simp)

theorem pointer_some : m.Pointer (some p) ↔ (m.node p).isSome := by
  simp [Pointer]

theorem links_of_node (hn : m.node p = some n) : m.links p = n.next := by
  rw [links, hn, Option.bind_some]

theorem deref_of_node (hn : m.node p = some n) : m.deref (some p) = .ok n := by
  rw [deref, hn]
  rfl

/-- A pointer that may be followed is the address of a node. -/
theorem deref_eq_ok (hd : m.deref h = .ok n) : ∃ p, h = some p ∧ m.node p = some n := by
  cases h with
  | none => cases hd
  | some p =>
    refine ⟨p, rfl, ?_⟩
    cases hn : m.node p with
    | none => simp [deref, hn] at hd
    | some n' =>
      rw [deref_of_node hn] at hd
      rw [Except.ok.inj hd]

/-- To follow a pointer to a node gives its link. -/
theorem Pointer.deref (hp : m.Pointer (some p)) :
    ∃ n, m.node p = some n ∧ m.deref (some p) = .ok n ∧ n.next = m.links p := by
  obtain ⟨n, hn⟩ := Option.isSome_iff_exists.mp (pointer_some.mp hp)
  exact ⟨n, hn, deref_of_node hn, (links_of_node hn).symm⟩

end

end Memory

/-- **A heap of list nodes.** -/
structure Heap (P : Type) extends Memory P where
  /-- There are finitely many nodes. -/
  finite : ∃ nodes : List P, ∀ p, (node p).isSome → p ∈ nodes
  /-- The links are pointers. -/
  closed : ∀ p n, node p = some n → toMemory.Pointer n.next

namespace Heap

variable {g : Heap P} {h : Option P} {p : P} {n : LinkNode P}

/-- The nodes of a heap: their links stay among them. -/
theorem exists_nodes (g : Heap P) : ∃ nodes : List P,
    (∀ a ∈ nodes, ∀ b, g.links a = some b → b ∈ nodes) ∧
      ∀ h, g.Pointer h → ∀ a, h = some a → a ∈ nodes := by
  obtain ⟨nodes, hnodes⟩ := g.finite
  refine ⟨nodes, fun a _ b hb => hnodes b ?_, fun h hp a ha => hnodes a (hp a ha)⟩
  obtain ⟨n, hn, hnext⟩ := Option.bind_eq_some_iff.mp hb
  exact g.closed a n hn b hnext

/-- The links of a heap are pointers. -/
theorem pointer_links (g : Heap P) (p : P) : g.Pointer (g.links p) := by
  intro b hb
  obtain ⟨n, hn, hnext⟩ := Option.bind_eq_some_iff.mp hb
  exact g.closed p n hn b hnext

/-- So links lead from pointers to pointers. -/
theorem pointer_follow (hp : g.Pointer h) (k : ℕ) : g.Pointer (follow g.links k h) := by
  cases k with
  | zero => exact hp
  | succ k =>
    rw [follow_succ']
    intro b hb
    obtain ⟨a, -, hab⟩ := Option.bind_eq_some_iff.mp hb
    exact g.pointer_links a b hab

/-- The nodes of a path are there. -/
theorem pointer_of_path {l : List P} {q : Option P} (hp : g.Pointer h)
    (hl : Path g.links h l q) : ∀ a ∈ l, g.Pointer (some a) := by
  intro a ha
  obtain ⟨A, B, rfl⟩ := List.append_of_mem ha
  obtain ⟨m, hA, rfl, -⟩ := path_append.mp hl
  exact hA.follow_length ▸ pointer_follow hp A.length

theorem isSome_of_path {l : List P} {q : Option P} (hp : g.Pointer h)
    (hl : Path g.links h l q) : ∀ a ∈ l, (g.node a).isSome := fun a ha =>
  Memory.pointer_some.mp (pointer_of_path hp hl a ha)

/-- **The shapes**: a list that ends, or a tail that leads into a loop. -/
theorem list_or_lasso (hp : g.Pointer h) :
    (∃ l, Path g.links h l none) ∨ ∃ A c C, Lasso g.links h A c C := by
  classical
  obtain ⟨nodes, hclosed, hmem⟩ := g.exists_nodes
  exact Walk.list_or_lasso hclosed (hmem h hp)

/-- To follow a pointer into a heap gives a pointer. -/
theorem pointer_of_deref (hd : g.deref h = .ok n) : g.Pointer n.next := by
  obtain ⟨p, -, hn⟩ := Memory.deref_eq_ok hd
  exact g.closed p n hn

end Heap

/-! ### Heaps that are built -/

namespace Heap

variable [DecidableEq P]

/-- A heap in which a node has been written whose link is a pointer. -/
def put (g : Heap P) (p : P) (n : LinkNode P) (hn : g.Pointer n.next) : Heap P where
  node := Function.update g.node p (some n)
  deleted := g.deleted
  finite := by
    obtain ⟨nodes, hnodes⟩ := g.finite
    refine ⟨p :: nodes, fun q hq => ?_⟩
    by_cases hqp : q = p
    · exact hqp ▸ List.mem_cons_self
    · rw [Function.update_of_ne hqp] at hq
      exact List.mem_cons_of_mem _ (hnodes q hq)
  closed := by
    have hkeep : ∀ r, g.Pointer r → ∀ q, r = some q →
        (Function.update g.node p (some n) q).isSome := by
      intro r hr q hq
      by_cases hqp : q = p
      · rw [hqp, Function.update_self]
        rfl
      · rw [Function.update_of_ne hqp]
        exact hr q hq
    intro q n' hn'
    by_cases hqp : q = p
    · rw [hqp, Function.update_self] at hn'
      exact hkeep _ (Option.some.inj hn' ▸ hn)
    · rw [Function.update_of_ne hqp] at hn'
      exact hkeep _ (g.closed q n' hn')

variable {g : Heap P} {h : Option P} {p : P} {n : LinkNode P}

/-- A node that has been written is there, and so are the nodes that were there. -/
theorem pointer_put (hn : g.Pointer n.next) (hh : g.Pointer h ∨ h = some p) :
    (g.put p n hn).Pointer h := by
  intro q hq
  change (Function.update g.node p (some n) q).isSome
  by_cases hqp : q = p
  · rw [hqp, Function.update_self]
    rfl
  · rw [Function.update_of_ne hqp]
    rcases hh with hh | hh
    · exact hh q hq
    · exact absurd (Option.some.inj (hq.symm.trans hh)) hqp

end Heap

/-- **A memory that extends a heap**: it is a heap, and the pointers into the one are pointers
into it. -/
def Extends (g : Heap P) (m : Memory P) : Prop :=
  ∃ g' : Heap P, g'.toMemory = m ∧ ∀ h, g.Pointer h → g'.Pointer h

section Build

variable [DecidableEq P] {new : ℕ → P} {g : Heap P} {m : Memory P} {p q : P} {r : Option P}

/-- A new node that has no link. -/
theorem extends_alloc (g : Heap P) (p : P) (val : ℤ) :
    ∃ g' : Heap P, g'.toMemory = g.alloc p { val := val, next := none } ∧
      (∀ h, g.Pointer h → g'.Pointer h) ∧ g'.Pointer (some p) :=
  ⟨g.put p { val := val, next := none } Memory.pointer_none, rfl,
    fun _ hh => Heap.pointer_put _ (.inl hh), Heap.pointer_put _ (.inr rfl)⟩

/-- A link that is set to a pointer. -/
theorem extends_setNext (hr : g.Pointer r) (hm : g.setNext p r = .ok m) : Extends g m := by
  obtain ⟨n, -, hm⟩ := bind_eq_ok hm
  exact ⟨g.put p { n with next := r } hr, Except.ok.inj hm,
    fun _ hh => Heap.pointer_put _ (.inl hh)⟩

/-- Nodes that are appended to a list. -/
theorem extends_appendNodes {k i : ℕ} (hp : g.Pointer (some p))
    (hm : appendNodes new k i (g.toMemory, p) = .ok (m, q)) :
    ∃ g' : Heap P, g'.toMemory = m ∧ (∀ h, g.Pointer h → g'.Pointer h) ∧
      g'.Pointer (some q) := by
  induction k generalizing g p i with
  | zero =>
    obtain ⟨rfl, rfl⟩ := Prod.mk.inj (Except.ok.inj hm)
    exact ⟨g, rfl, fun _ hh => hh, hp⟩
  | succ k ih =>
    obtain ⟨m₁, hset, hm⟩ := bind_eq_ok hm
    obtain ⟨g₁, hg₁, hkeep₁, hnew⟩ := extends_alloc g (new i) (i * 2)
    rw [← hg₁] at hset
    obtain ⟨g₂, rfl, hkeep₂⟩ := extends_setNext hnew hset
    obtain ⟨g₃, hg₃, hkeep₃, hq⟩ := ih (hkeep₂ _ hnew) hm
    exact ⟨g₃, hg₃, fun h hh => hkeep₃ h (hkeep₂ h (hkeep₁ h hh)), hq⟩

/-- **The constructor builds a heap**, whose pointers its own are. -/
theorem heap_of_myLink {mode : Mode} {l : MyLink P}
    (h : myLink new g.toMemory mode = .ok (m, l)) :
    ∃ g' : Heap P, g'.toMemory = m ∧ g'.Pointer l.head ∧ g'.Pointer l.head2 := by
  obtain ⟨g₀, hg₀, -, hhead⟩ := extends_alloc g (new 0) 0
  cases mode with
  | simpleList =>
    obtain ⟨⟨m₁, p⟩, happend, h⟩ := bind_eq_ok h
    rw [← hg₀] at happend
    obtain ⟨g₁, rfl, hkeep, -⟩ := extends_appendNodes hhead happend
    obtain ⟨rfl, rfl⟩ := Prod.mk.inj (Except.ok.inj h)
    exact ⟨g₁, rfl, hkeep _ hhead, Memory.pointer_none⟩
  | loopList =>
    obtain ⟨m₂, hbuild, h⟩ := bind_eq_ok h
    obtain ⟨⟨m₁, p⟩, happend, hbuild⟩ := bind_eq_ok hbuild
    rw [← hg₀] at happend
    obtain ⟨g₁, rfl, hkeep, -⟩ := extends_appendNodes hhead happend
    obtain ⟨n₀, -, hbuild⟩ := bind_eq_ok hbuild
    obtain ⟨n₁, -, hbuild⟩ := bind_eq_ok hbuild
    obtain ⟨n₂, hn₂, hset⟩ := bind_eq_ok hbuild
    -- the loop leads back to a node that is there
    obtain ⟨g₂, rfl, hkeep₂⟩ := extends_setNext (Heap.pointer_of_deref hn₂) hset
    obtain ⟨rfl, rfl⟩ := Prod.mk.inj (Except.ok.inj h)
    exact ⟨g₂, rfl, hkeep₂ _ (hkeep _ hhead), Memory.pointer_none⟩
  | crossList =>
    obtain ⟨⟨m₃, head2⟩, hbuild, h⟩ := bind_eq_ok h
    obtain ⟨⟨m₁, p⟩, happend, hbuild⟩ := bind_eq_ok hbuild
    rw [← hg₀] at happend
    obtain ⟨g₁, rfl, hkeep₁, -⟩ := extends_appendNodes hhead happend
    obtain ⟨g₂, hg₂, hkeep₂, hhead2⟩ := extends_alloc g₁ (new 10) 0
    obtain ⟨⟨m₂, q⟩, happend₂, hbuild⟩ := bind_eq_ok hbuild
    rw [← hg₂] at happend₂
    obtain ⟨g₃, rfl, hkeep₃, -⟩ := extends_appendNodes hhead2 happend₂
    obtain ⟨n₀, -, hbuild⟩ := bind_eq_ok hbuild
    obtain ⟨n₁, -, hbuild⟩ := bind_eq_ok hbuild
    obtain ⟨n₂, -, hbuild⟩ := bind_eq_ok hbuild
    obtain ⟨n₃, hn₃, hbuild⟩ := bind_eq_ok hbuild
    obtain ⟨m₄, hset, hbuild⟩ := bind_eq_ok hbuild
    -- the second list leads to a node of the first one
    obtain ⟨g₄, rfl, hkeep₄⟩ := extends_setNext (Heap.pointer_of_deref hn₃) hset
    obtain ⟨rfl, rfl⟩ := Prod.mk.inj (Except.ok.inj hbuild)
    obtain ⟨rfl, rfl⟩ := Prod.mk.inj (Except.ok.inj h)
    exact ⟨g₄, rfl, hkeep₄ _ (hkeep₃ _ (hkeep₂ _ (hkeep₁ _ hhead))),
      hkeep₄ _ (hkeep₃ _ hhead2)⟩

end Build

/-- The heap without nodes. -/
def Heap.empty : Heap P where
  node := fun _ => none
  deleted := []
  finite := ⟨[], fun _ h => absurd h (by simp)⟩
  closed := fun _ _ h => absurd h (by simp)

/-- In the heap without nodes, and with the numbers as addresses, each shape is built. -/
theorem exists_myLink (mode : Mode) : ∃ (g : Heap ℕ) (l : MyLink ℕ),
    myLink id Heap.empty.toMemory mode = .ok (g.toMemory, l) ∧ g.Pointer l.head ∧
      g.Pointer l.head2 := by
  obtain ⟨⟨m, l⟩, h⟩ : ∃ r, myLink (P := ℕ) id Heap.empty.toMemory mode = .ok r := by
    cases mode <;> exact ⟨_, rfl⟩
  obtain ⟨g, rfl, hhead, hhead2⟩ := heap_of_myLink h
  exact ⟨g, l, h, hhead, hhead2⟩

end LinkedList

end BackendStudy
