import BackendStudy.LinkedList.Heap
import BackendStudy.Lib.Crossing

/-!
# Where two lists come together

`isListCrossed` counts the nodes of both lists, goes along the longer one by as many nodes as it
is longer, and then along both side by side. On lists whose numbers of nodes are values of `int`
these three loops do that (`BackendStudy.LinkedList.returns_countListNodeNum`,
`BackendStudy.LinkedList.returns_getNthNode`, `BackendStudy.LinkedList.isListCrossedStep_eq`), so
it returns the first node of the first list that is on the second one
(`BackendStudy.LinkedList.isListCrossed_exact`).

On a list with more nodes the counter leaves its type
(`BackendStudy.LinkedList.isListCrossed_overflow`).
-/

namespace BackendStudy

namespace LinkedList

open Chain Crossing Slots

variable {P : Type} {g : Heap P} {h h1 h2 : Option P} {l l1 l2 : List P}

theorem toInt_eq {x : ℤ} (h0 : 0 ≤ x) (hx : x ≤ 2147483647) : toInt x = .ok x :=
  if_pos ⟨by omega, hx⟩

theorem toInt_overflow {x : ℤ} (hx : 2147483647 < x) : toInt x = .error .overflow :=
  if_neg (by omega)

/-! ### Counting and going along -/

/-- **`countListNodeNum`** from a value of its counter on, if the number of nodes is a value of
`int`. -/
theorem returns_countLoop {cnt : ℤ} (hp : g.Pointer h) (hl : Path g.links h l none) (h0 : 0 ≤ cnt)
    (hcnt : cnt ≤ 2147483647) :
    Loop.Returns (fun n => Loop.run (Loop.checked (countListNodeNumStep g.toMemory)) n (cnt, h))
      (toInt (cnt + l.length)) := by
  induction l generalizing h cnt with
  | nil =>
    obtain rfl := hl
    rw [List.length_nil, Nat.cast_zero, add_zero, toInt_eq h0 hcnt]
    exact Loop.returns_checked_inr rfl
  | cons a l ih =>
    obtain ⟨rfl, hl⟩ := hl
    have hsum : cnt + ((a :: l).length : ℤ) = cnt + 1 + l.length := by
      rw [List.length_cons, Nat.cast_succ]
      omega
    rw [hsum]
    by_cases hnext : cnt + 1 ≤ 2147483647
    · obtain ⟨n, -, hn, hlink⟩ := hp.deref
      have hround : countListNodeNumStep g.toMemory (cnt, some a) =
          .ok (.inl (cnt + 1, g.links a)) := by
        rw [countListNodeNumStep, toInt_eq (by omega) hnext, ok_bind, hn, ok_bind, hlink]
        rfl
      exact Loop.returns_checked_inl hround (ih (g.pointer_links a) hl (by omega) hnext)
    · rw [toInt_overflow (by omega)]
      refine Loop.returns_checked_error ?_
      rw [countListNodeNumStep, toInt_overflow (by omega)]
      rfl

/-- `countListNodeNum` of a list. -/
theorem returns_countListNodeNum (hp : g.Pointer h) (hl : Path g.links h l none) :
    Loop.Returns (fun n => countListNodeNum g.toMemory n h) (toInt l.length) := by
  have hcount := returns_countLoop hp hl (le_refl 0) (by omega)
  rwa [zero_add] at hcount

/-- **`getNthNode`** goes along the links, here from a value of its counter on. -/
theorem returns_getNthLoop {k : ℕ} {i n : ℤ} (hp : g.Pointer h) (h0 : 0 ≤ i) (hk : i + k = n)
    (hn : n ≤ 2147483647) :
    Loop.Returns (fun fuel => Loop.run (Loop.checked (getNthNodeStep g.toMemory n)) fuel (i, h))
      (.ok (follow g.links k h)) := by
  induction k generalizing h i with
  | zero =>
    refine Loop.returns_checked_inr ?_
    cases h with
    | none => rfl
    | some a =>
      rw [getNthNodeStep, if_neg (by omega)]
      rfl
  | succ k ih =>
    cases h with
    | none =>
      rw [follow_none]
      exact Loop.returns_checked_inr rfl
    | some a =>
      obtain ⟨node, -, hnode, hlink⟩ := hp.deref
      have hround : getNthNodeStep g.toMemory n (i, some a) = .ok (.inl (i + 1, g.links a)) := by
        rw [getNthNodeStep, if_pos (by omega), hnode, ok_bind, toInt_eq (by omega) (by omega),
          ok_bind, hlink]
        rfl
      exact Loop.returns_checked_inl hround
        (ih (g.pointer_links a) (by omega) (by push_cast at hk; omega))

/-- `getNthNode` by the difference of two numbers of nodes. -/
theorem returns_getNthNode {a b : ℕ} (hp : g.Pointer h) (hle : b ≤ a) (ha : a ≤ 2147483647) :
    Loop.Returns (fun fuel => getNthNode g.toMemory fuel h ((a : ℤ) - b))
      (.ok (follow g.links (a - b) h)) :=
  returns_getNthLoop hp (le_refl 0) (by omega) (by omega)

/-! ### Side by side -/

variable [DecidableEq P]

/-- A round of the loop of `isListCrossed` follows pointers to nodes only. -/
theorem isListCrossedStep_eq (hp1 : g.Pointer h1) (hp2 : g.Pointer h2) :
    isListCrossedStep g.toMemory (h1, h2) = .ok (meetStep g.links (h1, h2)) := by
  rw [isListCrossedStep, meetStep]
  by_cases hnull : h1 ≠ none ∧ h2 ≠ none
  · rw [if_pos hnull, if_pos hnull]
    by_cases hmeet : h1 = h2
    · rw [if_pos hmeet, if_pos hmeet]
    · rw [if_neg hmeet, if_neg hmeet]
      obtain ⟨a, rfl⟩ := Option.ne_none_iff_exists'.mp hnull.1
      obtain ⟨b, rfl⟩ := Option.ne_none_iff_exists'.mp hnull.2
      obtain ⟨n1, -, hn1, hlink1⟩ := hp1.deref
      obtain ⟨n2, -, hn2, hlink2⟩ := hp2.deref
      simp only [hn1, hn2, ok_bind, hlink1, hlink2, Option.bind_some]
      rfl
  · rw [if_neg hnull, if_neg hnull]

/-- The rounds keep the pointers pointers. -/
theorem pointer_meetStep {s s' : Option P × Option P} (hs : g.Pointer s.1 ∧ g.Pointer s.2)
    (hstep : meetStep g.links s = .inl s') : g.Pointer s'.1 ∧ g.Pointer s'.2 := by
  obtain ⟨p, q⟩ := s
  by_cases hnull : p ≠ none ∧ q ≠ none
  · by_cases hmeet : p = q
    · rw [meetStep, if_pos hnull, if_pos hmeet] at hstep
      cases hstep
    · rw [meetStep, if_pos hnull, if_neg hmeet] at hstep
      obtain rfl := Sum.inl.inj hstep
      exact ⟨Heap.pointer_follow hs.1 1, Heap.pointer_follow hs.2 1⟩
  · rw [meetStep, if_neg hnull] at hstep
    cases hstep

/-- The last loop of `isListCrossed` goes along the links side by side. -/
theorem run_isListCrossedStep (hp1 : g.Pointer h1) (hp2 : g.Pointer h2) (n : ℕ) :
    Loop.run (Loop.checked (isListCrossedStep g.toMemory)) n (h1, h2) =
      (meet g.links n h1 h2).map .ok := by
  have hstart : g.Pointer (h1, h2).1 ∧ g.Pointer (h1, h2).2 := ⟨hp1, hp2⟩
  exact @Loop.run_checked _ _ _ _ (isListCrossedStep g.toMemory)
    (fun s => g.Pointer s.1 ∧ g.Pointer s.2) (fun _ _ => pointer_meetStep)
    (fun _ hs => isListCrossedStep_eq hs.1 hs.2) n (h1, h2) hstart

/-- **`isListCrossed` is exact** on lists whose numbers of nodes are values of `int`: it returns
the first node of the first list that is on the second one, which is null if and only if they
have no node in common. -/
theorem isListCrossed_exact (g : Heap P) (h1 h2 : Option P) (l1 l2 : List P)
    (hp1 : g.Pointer h1) (hp2 : g.Pointer h2) (hl1 : Path g.links h1 l1 none)
    (hl2 : Path g.links h2 l2 none) (hlen1 : l1.length ≤ 2147483647)
    (hlen2 : l2.length ≤ 2147483647) :
    Loop.Returns (fun n => isListCrossed g.toMemory n h1 h2) (.ok (l1.find? (· ∈ l2))) ∧
      (l1.find? (· ∈ l2) = none ↔ ∀ p, ¬(p ∈ l1 ∧ p ∈ l2)) := by
  refine ⟨?_, by simp⟩
  have hcount1 := returns_countListNodeNum hp1 hl1
  have hcount2 := returns_countListNodeNum hp2 hl2
  rw [toInt_eq (by omega) (by omega)] at hcount1 hcount2
  refine hcount1.andThen_ok (hcount2.andThen_ok (Loop.Returns.andThen_ok
    (a := (follow g.links (l1.length - l2.length) h1, follow g.links (l2.length - l1.length) h2))
    ?_ ?_))
  · by_cases hlt : (l1.length : ℤ) > l2.length
    · have hzero : l2.length - l1.length = 0 := by omega
      simp only [if_pos hlt, toInt_eq (by omega : 0 ≤ (l1.length : ℤ) - l2.length) (by omega),
        hzero, follow_zero]
      exact (Loop.returns_pure _).andThen_ok
        ((returns_getNthNode hp1 (by omega) hlen1).andThen_ok (Loop.returns_pure _))
    · have hzero : l1.length - l2.length = 0 := by omega
      simp only [if_neg hlt, toInt_eq (by omega : 0 ≤ (l2.length : ℤ) - l1.length) (by omega),
        hzero, follow_zero]
      exact (Loop.returns_pure _).andThen_ok
        ((returns_getNthNode hp2 (by omega) hlen2).andThen_ok (Loop.returns_pure _))
  · simp only [run_isListCrossedStep (Heap.pointer_follow hp1 _) (Heap.pointer_follow hp2 _)]
    exact (returns_meet hl1 hl2).map Except.ok

/-- The lists that `CROSS_LIST` builds come together at the fifth node of the first one. -/
theorem isListCrossed_exact_sample : ∃ (g : Heap ℕ) (l : MyLink ℕ),
    myLink id Heap.empty.toMemory .crossList = .ok (g.toMemory, l) ∧
      Loop.Returns (fun n => isListCrossed g.toMemory n l.head l.head2) (.ok (some 4)) := by
  obtain ⟨g, l, hbuilt, hhead, hhead2⟩ := exists_myLink .crossList
  have hpaths : ∀ r, myLink (P := ℕ) id Heap.empty.toMemory .crossList = .ok r →
      Path r.1.links r.2.head [0, 1, 2, 3, 4, 5, 6, 7, 8, 9] none ∧
        Path r.1.links r.2.head2 [10, 11, 12, 13, 14, 15, 16, 17, 4, 5, 6, 7, 8, 9] none := by
    intro r hr
    cases hr
    exact ⟨⟨rfl, rfl, rfl, rfl, rfl, rfl, rfl, rfl, rfl, rfl, rfl⟩,
      ⟨rfl, rfl, rfl, rfl, rfl, rfl, rfl, rfl, rfl, rfl, rfl, rfl, rfl, rfl, rfl⟩⟩
  obtain ⟨hl1, hl2⟩ := hpaths _ hbuilt
  exact ⟨g, l, hbuilt,
    (isListCrossed_exact g _ _ _ _ hhead hhead2 hl1 hl2 (by decide) (by decide)).1⟩

/-! ### Longer lists -/

/-- **On a list with more nodes** the counter leaves the range of `int`. -/
theorem isListCrossed_overflow (hp1 : g.Pointer h1) (hl1 : Path g.links h1 l1 none)
    (hlen1 : 2147483647 < l1.length) :
    Loop.Returns (fun n => isListCrossed g.toMemory n h1 h2) (.error .overflow) := by
  have hcount1 := returns_countListNodeNum hp1 hl1
  rw [toInt_overflow (by omega)] at hcount1
  exact hcount1.andThen_error

/-- A heap that is one list, of nodes at the first addresses. -/
def Heap.row (k : ℕ) : Heap ℕ where
  node := fun p =>
    if p < k then some { val := 0, next := if p + 1 < k then some (p + 1) else none } else none
  deleted := []
  finite := by
    refine ⟨List.range k, fun p hp => List.mem_range.mpr ?_⟩
    by_contra hpk
    rw [if_neg hpk] at hp
    exact absurd hp (by simp)
  closed := by
    intro p n hn q hq
    by_cases hpk : p < k
    · rw [if_pos hpk] at hn
      obtain rfl := Option.some.inj hn
      by_cases hpk' : p + 1 < k
      · simp only [if_pos hpk', Option.some.injEq] at hq
        subst hq
        simp [hpk']
      · simp [hpk'] at hq
    · rw [if_neg hpk] at hn
      cases hn

theorem Heap.row_node {k p : ℕ} (hp : p < k) : (Heap.row k).node p =
    some { val := 0, next := if p + 1 < k then some (p + 1) else none } := if_pos hp

/-- The list in this heap, from one of its nodes on. -/
theorem Heap.path_row {k i d : ℕ} (hd : i + d = k) :
    Path (Heap.row k).links (if i < k then some i else none) (List.range' i d) none := by
  induction d generalizing i with
  | zero => exact if_neg (by omega)
  | succ d ih =>
    have hi : i < k := by omega
    refine ⟨if_pos hi, ?_⟩
    rw [Memory.links_of_node (Heap.row_node hi)]
    exact ih (by omega)

/-- **On a list of 2147483648 nodes** and an empty one `isListCrossed` does not return null. -/
theorem not_isListCrossed_exact_sample :
    ¬∀ (g : Heap ℕ) (h1 h2 : Option ℕ) (l1 l2 : List ℕ), g.Pointer h1 → g.Pointer h2 →
      Path g.links h1 l1 none → Path g.links h2 l2 none →
        Loop.Returns (fun n => isListCrossed g.toMemory n h1 h2) (.ok (l1.find? (· ∈ l2))) := by
  intro hall
  obtain ⟨k, hk⟩ : ∃ k, k = 2147483648 := ⟨_, rfl⟩
  have hpath := Heap.path_row (k := k) (zero_add k)
  rw [if_pos (by omega)] at hpath
  have hp : (Heap.row k).Pointer (some 0) := by
    rw [Memory.pointer_some, Heap.row_node (by omega)]
    rfl
  have hover : Loop.Returns (fun n => isListCrossed (Heap.row k).toMemory n (some 0) none)
      (.error .overflow) :=
    isListCrossed_overflow hp hpath (by rw [List.length_range']; omega)
  exact absurd (hover.unique (hall _ _ none _ [] hp Memory.pointer_none hpath rfl)) (by simp)

end LinkedList

end BackendStudy
