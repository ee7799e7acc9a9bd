import BackendStudy.Hiredis.Associations
import BackendStudy.Lib.Runs

/-!
# Iterators of hash tables

An iterator goes through a table while its user may delete entries: `dictNext` keeps the link of
the entry that it returns, as that entry may be gone at the next call. `BackendStudy.Hiredis.Sweep`
is a dict with an iterator and what the iterator has returned.

As long as only entries that have been returned are deleted, the iterator of a table with at most
`2 ^ 30` slots (`BackendStudy.Hiredis.Sized`) returns every entry that was in the dict exactly once
(`BackendStudy.Hiredis.Sweep.run_seen`), and follows no pointer to an entry that has been freed. The
entries that are still to come are the rest of the bucket it is in, to which the kept link points,
and the buckets behind it (`BackendStudy.Hiredis.Coming`).
-/

namespace BackendStudy

namespace Hiredis

open Slots Arena Runs

/-- A dict, an iterator over it, and the entries that the iterator has returned. -/
structure Sweep (K V : Type) where
  /-- The dict. -/
  ht : Dict K V
  /-- The iterator. -/
  iter : DictIterator
  /-- The entries that have been returned. -/
  seen : List (K × V)
  /-- `dictNext` has returned `NULL`. -/
  finished : Bool

/-- A call during a sweep. -/
inductive SweepOp (K : Type)
  /-- `dictNext`. -/
  | next
  /-- `dictDelete`. -/
  | delete (key : K)

section

variable {K V : Type}

/-- A new iterator. -/
def Sweep.start (ht : Dict K V) : Sweep K V := ⟨ht, dictGetIterator, [], false⟩

/-- A call during a sweep. -/
def Sweep.exec (T : DictType K) (s : Sweep K V) : SweepOp K → Except Fault (Sweep K V)
  | .next => do
    let (entry, iter) ← dictNext s.ht s.iter
    match entry with
    | none => return { s with iter := iter, finished := true }
    | some he =>
      let e ← load .noObject s.ht.cells (some he)
      return { s with iter := iter, seen := s.seen ++ [(e.key, e.val)] }
  | .delete key => do
    let (_, ht) ← dictDelete T s.ht key
    return { s with ht := ht }

/-- A call that leads to a state. -/
def Sweep.step (T : DictType K) (s : Sweep K V) (op : SweepOp K) (s' : Sweep K V) : Prop :=
  s.exec T op = .ok s'

/-- What a user of an iterator may do: to go on until `NULL`, and to delete what has been
returned. -/
def Sweep.Allows (T : DictType K) (s : Sweep K V) : SweepOp K → Prop
  | .next => s.finished = false
  | .delete key => ∃ x ∈ s.seen, T.keyCompare key x.1

/-- What a call leaves of an association list. -/
def SweepOp.erase (eqv : K → K → Bool) (l : List (K × V)) : SweepOp K → List (K × V)
  | .next => l
  | .delete key => Assoc.erase eqv l key

/-- **What is still to come** from an iterator. -/
inductive Coming (B : List (List (ℕ × K × V))) (iter : DictIterator) : List (ℕ × K × V) → Prop
  /-- It has not begun: everything is. -/
  | all (hindex : iter.index = -1) (hentry : iter.entry = none) : Coming B iter B.flatten
  /-- It has returned an entry: the rest of its bucket, and the buckets behind it. -/
  | rest {A C : List (List (ℕ × K × V))} {P Y : List (ℕ × K × V)} (hB : B = A ++ (P ++ Y) :: C)
      (hindex : iter.index = A.length) (hentry : iter.entry.isSome)
      (hnext : iter.nextEntry = Y.head?.map Prod.fst) : Coming B iter (Y ++ C.flatten)

variable {T : DictType K} {ht : Dict K V} {B R A : List (List (ℕ × K × V))}
  {iter t : DictIterator} {s s' : Sweep K V} {ops : List (SweepOp K)} {fuel : ℕ}
  {l : List (ℕ × K × V)}

/-! ### The next entry -/

theorem toInt_natCast {n : ℕ} (hn : n ≤ 2 ^ 30) : toInt n = n :=
  Int.bmod_eq_of_le (by omega) (by omega)

/-- Where there are no more slots. -/
theorem nextLoop_end (hsize : ht.size ≤ 2 ^ 30) (hindex : iter.index = ht.size - 1)
    (hentry : iter.entry = none) :
    nextLoop ht (fuel + 1) iter = .ok (none, { iter with index := ht.size }) := by
  have hnext : toInt (iter.index + 1) = ht.size := by
    rw [hindex, Int.sub_add_cancel, toInt_natCast hsize]
  rw [nextLoop]
  simp only [hentry, if_true, hnext, toInt_natCast hsize, ge_iff_le, le_refl, and_self]
  rfl

/-- An empty slot is passed. -/
theorem nextLoop_empty {i : ℕ} (hsize : ht.size ≤ 2 ^ 30) (hi : i < ht.size)
    (hindex : iter.index = i - 1) (hentry : iter.entry = none) (hp : ht.table[i]? = some none) :
    nextLoop ht (fuel + 1) iter = nextLoop ht fuel ⟨i, none, iter.nextEntry⟩ := by
  have hnext : toInt (iter.index + 1) = i := by
    rw [hindex, Int.sub_add_cancel, toInt_natCast (by omega)]
  have hmore : ¬((i : ℤ) ≥ ht.size) := by omega
  rw [nextLoop]
  simp only [hentry, if_true, hnext, toInt_natCast hsize, hmore, and_false, if_false]
  rw [slotAt_natCast, get_of_getElem? hp, ok_bind]

/-- The first entry of a slot is returned. -/
theorem nextLoop_head {i a : ℕ} {e : DictEntry K V} (hsize : ht.size ≤ 2 ^ 30) (hi : i < ht.size)
    (hindex : iter.index = i - 1) (hentry : iter.entry = none)
    (hp : ht.table[i]? = some (some a)) (he : cell ht.cells a = some e) :
    nextLoop ht (fuel + 1) iter = .ok (some a, ⟨i, some a, e.next⟩) := by
  have hnext : toInt (iter.index + 1) = i := by
    rw [hindex, Int.sub_add_cancel, toInt_natCast (by omega)]
  have hmore : ¬((i : ℤ) ≥ ht.size) := by omega
  rw [nextLoop]
  simp only [hentry, if_true, hnext, toInt_natCast hsize, hmore, and_false, if_false]
  rw [slotAt_natCast, get_of_getElem? hp, ok_bind]
  simp only
  rw [load_of_cell he]
  rfl

/-- The rest of a bucket is followed. -/
theorem nextLoop_link (hentry : iter.entry.isSome) :
    nextLoop ht (fuel + 1) iter = match iter.nextEntry with
      | some he => do
        let e ← load .noObject ht.cells (some he)
        return (some he, ⟨iter.index, some he, e.next⟩)
      | none => nextLoop ht fuel ⟨iter.index, none, none⟩ := by
  have hne : ¬(iter.entry = none) := Option.isSome_iff_ne_none.mp hentry
  rw [nextLoop]
  simp only [hne, if_false, false_and, ok_bind]
  cases iter.nextEntry <;> rfl

/-- **From slot to slot** to the next bucket that is not empty. -/
theorem nextLoop_scan (h : Rep T ht (A ++ R)) (hindex : t.index = A.length - 1)
    (hentry : t.entry = none) (hfuel : R.length < fuel) :
    (R.flatten = [] ∧ ∃ iter', nextLoop ht fuel t = .ok (none, iter')) ∨
      ∃ E x Y C iter', R = E ++ (x :: Y) :: C ∧ E.flatten = [] ∧
        nextLoop ht fuel t = .ok (some x.1, iter') ∧ iter'.entry.isSome ∧
          iter'.index = (A ++ E).length ∧ iter'.nextEntry = Y.head?.map Prod.fst := by
  have hsize := h.sized.le
  induction R generalizing A t fuel with
  | nil =>
    obtain ⟨fuel, rfl⟩ : ∃ f, fuel = f + 1 := ⟨fuel - 1, by simp at hfuel; omega⟩
    have hend : t.index = ht.size - 1 := by
      rw [hindex, ← h.length, List.append_nil]
    exact .inl ⟨rfl, _, nextLoop_end hsize hend hentry⟩
  | cons l R ih =>
    have hlen := h.length
    rw [List.length_append, List.length_cons] at hlen
    rw [List.length_cons] at hfuel
    obtain ⟨fuel, rfl⟩ : ∃ f, fuel = f + 1 := ⟨fuel - 1, by omega⟩
    obtain ⟨A₁, p, C₁, A₂, l₂, C₂, htable, hB, hA₁, hA₂, -, hp, -⟩ :=
      h.tabled.cut (i := A.length) (by simp)
    obtain ⟨rfl, hlR⟩ := List.append_inj hB hA₂.symm
    obtain ⟨rfl, rfl⟩ := List.cons.inj hlR
    have hget : ht.table[A.length]? = some p := by
      rw [htable, ← hA₁]
      simp
    -- an empty slot is passed by
    cases l with
    | nil =>
      obtain rfl : p = none := hp
      rw [nextLoop_empty hsize (by omega) hindex hentry hget]
      rcases ih (A := A ++ [[]]) (t := ⟨A.length, none, t.nextEntry⟩)
        (by simpa using h) (by simp) rfl (show R.length < fuel by omega) with
        ⟨hR, hend⟩ | ⟨E, x, Y, C, iter', rfl, hE, hrest⟩
      · exact .inl ⟨by simpa using hR, hend⟩
      · refine .inr ⟨[] :: E, x, Y, C, iter', rfl, by simpa using hE, ?_⟩
        rw [List.append_assoc] at hrest
        exact hrest
    | cons x Y =>
      -- the first entry of the first list that has one
      obtain ⟨rfl, e, he, hx, hY⟩ := hp
      exact .inr ⟨[], x, Y, R, ⟨A.length, some x.1, e.next⟩, rfl, rfl,
        nextLoop_head hsize (by omega) hindex hentry hget he, rfl, by simp, Linked.eq_head? hY⟩

/-- **The next entry** is the first of those that are to come. -/
theorem dictNext_coming (h : Rep T ht B) (hl : Coming B iter l) :
    (l = [] ∧ ∃ iter', dictNext ht iter = .ok (none, iter')) ∨
      ∃ x l' iter', l = x :: l' ∧ dictNext ht iter = .ok (some x.1, iter') ∧
        Coming B iter' l' := by
  cases hl with
  | all hindex hentry =>
    rcases nextLoop_scan (A := []) (R := B) h (by simpa using hindex) hentry
      (show B.length < ht.size + 2 by rw [h.length]; omega) with
      ⟨hB, hend⟩ | ⟨E, x, Y, C, iter', rfl, hE, heq, hrest⟩
    · exact .inl ⟨hB, hend⟩
    -- the first entry, in the first bucket that has one
    · refine .inr ⟨x, Y ++ C.flatten, iter', ?_, heq, ?_⟩
      · rw [List.flatten_append, List.flatten_cons, hE, List.nil_append, List.cons_append]
      · exact .rest (P := [x]) rfl hrest.2.1 hrest.1 hrest.2.2
  | @rest A C P Y hB hindex hentry hnext =>
    subst hB
    rw [dictNext]
    cases Y with
    | nil =>
      -- the list has come to its end, and the search goes on in the buckets behind it
      have hnone : iter.nextEntry = none := hnext
      rw [nextLoop_link hentry, hnone]
      simp only
      rcases nextLoop_scan (A := A ++ [P ++ []]) (R := C) (t := ⟨iter.index, none, none⟩)
        (by simpa using h) (by simp [hindex]) rfl
        (show C.length < ht.size + 1 by have := h.length; simp at this; omega) with
        ⟨hC, hend⟩ | ⟨E, x, Y, C, iter', rfl, hE, heq, hrest⟩
      · exact .inl ⟨by simpa using hC, hend⟩
      · refine .inr ⟨x, Y ++ C.flatten, iter', ?_, heq, ?_⟩
        · rw [List.nil_append, List.flatten_append, List.flatten_cons, hE, List.nil_append,
            List.cons_append]
        · refine .rest (A := A ++ [P ++ []] ++ E) (P := [x]) (by simp) ?_ hrest.1 hrest.2.2
          exact hrest.2.1
    | cons y Y =>
      -- the next entry of the list, which has been remembered before the user could delete this one
      obtain ⟨A₁, p, C₁, A₂, l₂, C₂, -, hB, -, hA₂, -, hp, -⟩ :=
        h.tabled.cut (i := A.length) (by simp)
      obtain ⟨rfl, hlR⟩ := List.append_inj hB hA₂.symm
      obtain ⟨rfl, rfl⟩ := List.cons.inj hlR
      obtain ⟨q, -, rfl, e, he, -, hY⟩ := linked_append.mp hp
      refine .inr ⟨y, Y ++ C.flatten, ⟨iter.index, some y.1, e.next⟩, rfl, ?_, ?_⟩
      · rw [nextLoop_link hentry, hnext]
        simp only [List.head?_cons, Option.map_some]
        rw [load_of_cell he]
        rfl
      · exact .rest (P := P ++ [y]) (by simp) hindex rfl (Linked.eq_head? hY)

/-! ### Deleting on the way -/

/-- **An entry that is not to come** may be taken out of its bucket. -/
theorem Coming.without {A' C' : List (List (ℕ × K × V))} {P' Y' : List (ℕ × K × V)}
    {x : ℕ × K × V} (h : Coming (A' ++ (P' ++ x :: Y') :: C') iter l) (hx : x ∉ l) :
    Coming (A' ++ (P' ++ Y') :: C') iter l := by
  generalize hB : A' ++ (P' ++ x :: Y') :: C' = B at h
  cases h with
  | all hindex hentry =>
    rw [← hB] at hx
    exact absurd (by simp) hx
  | @rest A C P Y hB' hindex hentry hnext =>
    rw [List.mem_append, not_or] at hx
    rw [hB'] at hB
    -- in the bucket of the iterator, the entry stands before the rest
    have hsame : P ++ Y = P' ++ x :: Y' → C = C' → A = A' →
        Coming (A' ++ (P' ++ Y') :: C') iter (Y ++ C.flatten) := by
      rintro hPY rfl rfl
      rcases List.append_eq_append_iff.mp hPY with ⟨D, rfl, hY⟩ | ⟨D, rfl, hD⟩
      · exact absurd (by rw [hY]; simp) hx.1
      · cases D with
        | nil => exact absurd (by rw [← List.nil_append Y, ← hD]; simp) hx.1
        | cons d D =>
          obtain ⟨rfl, rfl⟩ := List.cons.inj hD
          exact .rest (P := P' ++ D) (by simp) hindex hentry hnext
    rcases List.append_eq_append_iff.mp hB with ⟨D, rfl, hD⟩ | ⟨D, rfl, hD⟩
    · cases D with
      | nil =>
        obtain ⟨hPY, rfl⟩ := List.cons.inj hD
        exact hsame hPY.symm rfl (by simp)
      | cons d D =>
        obtain ⟨rfl, rfl⟩ := List.cons.inj hD
        exact .rest (A := A' ++ (P' ++ Y') :: D) (P := P) (by simp) (by simpa using hindex) hentry
          hnext
    · cases D with
      | nil =>
        obtain ⟨hPY, rfl⟩ := List.cons.inj hD
        exact hsame hPY rfl (by simp)
      | cons d D =>
        obtain ⟨rfl, rfl⟩ := List.cons.inj hD
        exact absurd (by simp) hx.2

/-- What is to come is there. -/
theorem Coming.mem {x : ℕ × K × V} (h : Coming B iter l) (hx : x ∈ l) : x ∈ B.flatten := by
  cases h with
  | all => exact hx
  | rest hB =>
    rw [hB, List.flatten_append, List.flatten_cons]
    rcases List.mem_append.mp hx with hx | hx <;> simp [hx]

/-- **A sweep over a dict**: what has been returned and what is to come are the entries that were
there, and the dict has those that have not been deleted. -/
def Sweeping (T : DictType K) (l₀ : List (K × V)) (ops : List (SweepOp K)) (s : Sweep K V) : Prop :=
  ∃ B l, Rep T s.ht B ∧ (s.finished = false → Coming B s.iter l) ∧ (s.finished → l = []) ∧
    (s.seen ++ l.map Prod.snd).Perm l₀ ∧
    (contents B).Perm (ops.foldl (SweepOp.erase T.keyCompare) l₀)

theorem sweeping_start (h : Rep T ht B) : Sweeping T (contents B) [] (Sweep.start ht) :=
  ⟨B, B.flatten, h, fun _ => .all rfl rfl, fun hf => absurd hf Bool.false_ne_true,
    List.Perm.refl _, List.Perm.refl _⟩

/-- **A call during a sweep** is safe, and the sweep goes on. -/
theorem Sweeping.exec (hT : T.Lawful) {l₀ : List (K × V)} (hl₀ : Assoc.Keyed T.keyCompare l₀)
    (h : Sweeping T l₀ ops s) {op : SweepOp K} (hop : s.Allows T op) :
    ∃ s', s.exec T op = .ok s' ∧ Sweeping T l₀ (ops ++ [op]) s' := by
  obtain ⟨B, l, hrep, hcoming, hfin, hseen, hleft⟩ := h
  cases op with
  | next =>
    rcases dictNext_coming hrep (hcoming hop) with ⟨rfl, iter', heq⟩ | ⟨x, l', iter', rfl, heq, hc⟩
    · refine ⟨{ s with iter := iter', finished := true }, ?_, B, [], hrep, fun hf => absurd hf ?_,
        fun _ => rfl, hseen, ?_⟩
      · rw [Sweep.exec, heq]
        rfl
      · exact Bool.true_eq_false_eq_False
      · rw [List.foldl_append]
        exact hleft
    · obtain ⟨next, hcell⟩ := hrep.cell_of_mem ((hcoming hop).mem List.mem_cons_self)
      refine ⟨{ s with iter := iter', seen := s.seen ++ [x.2] }, ?_, B, l', hrep, fun _ => hc,
        fun hf => absurd (hop.symm.trans hf) Bool.false_ne_true, ?_, ?_⟩
      · rw [Sweep.exec, heq, ok_bind]
        simp only
        rw [load_of_cell hcell]
        rfl
      · rw [List.append_assoc]
        exact hseen
      · rw [List.foldl_append]
        exact hleft
  | delete key =>
    obtain ⟨x, hx, hkx⟩ := hop
    have hleft' : (Assoc.erase T.keyCompare (contents B) key).Perm
        ((ops ++ [SweepOp.delete key]).foldl (SweepOp.erase T.keyCompare) l₀) := by
      rw [List.foldl_append]
      exact hleft.filter _
    cases hf : Assoc.find T.keyCompare (contents B) key with
    | none =>
      refine ⟨s, ?_, B, l, hrep, hcoming, hfin, hseen, ?_⟩
      · rw [Sweep.exec, dictDelete_missing hrep hf]
        rfl
      · rw [← Assoc.erase_eq_self hf]
        exact hleft'
    | some v =>
      obtain ⟨A', P, a, k, Y, C', ht', rfl, hk, heq, hrep', -⟩ := dictDelete_held hT hrep hf
      -- the entry has been returned, so it is not to come
      have hnot : (a, k, v) ∉ l := by
        intro hmem
        have hne := (List.pairwise_append.mp (hl₀.perm hT.symm hseen.symm)).2.2 x hx (k, v)
          (List.mem_map_of_mem hmem)
        rw [hT.trans x.1 key k ((hT.symm x.1 key).trans hkx) hk] at hne
        exact absurd hne (by simp)
      have hkeyed := hrep.keyed
      rw [contents_middle] at hkeyed
      have herase := hkeyed.erase_middle hT.symm hT.trans hk
      rw [← contents_middle, ← contents_without] at herase
      refine ⟨{ s with ht := ht' }, ?_, _, l, hrep', fun hn => (hcoming hn).without hnot, hfin,
        hseen, ?_⟩
      · rw [Sweep.exec, heq]
        rfl
      · rw [← herase]
        exact hleft'

/-- **An iterator returns every entry once**, while entries that it has returned are deleted: at
any time what it has returned is a part of the entries that there were, after `NULL` it is all of
them; the entries that have not been deleted are left; and nothing it may be asked for fails. -/
theorem Sweep.run_seen (hT : T.Lawful) (h : Rep T ht B)
    (hrun : Run (guard (Sweep.Allows T) (Sweep.step T)) (Sweep.start ht) ops s) :
    (∃ rest, (s.seen ++ rest).Perm (contents B) ∧ (s.finished → rest = [])) ∧
      (∃ B', Rep T s.ht B' ∧
        (contents B').Perm (ops.foldl (SweepOp.erase T.keyCompare) (contents B))) ∧
      ∀ op, s.Allows T op → ∃ s', s.exec T op = .ok s' := by
  have hinv : Sweeping T (contents B) ops s := by
    refine hrun.invariant_labels (sweeping_start h) fun ops s op s' hs ⟨hop, hstep⟩ => ?_
    obtain ⟨s₁, heq, hs₁⟩ := hs.exec hT h.keyed hop
    obtain rfl := Except.ok.inj (heq.symm.trans hstep)
    exact hs₁
  refine ⟨?_, ?_, fun op hop => ?_⟩
  · obtain ⟨-, l, -, -, hfin, hseen, -⟩ := hinv
    exact ⟨l.map Prod.snd, hseen, fun hf => by rw [hfin hf, List.map_nil]⟩
  · obtain ⟨B', -, hrep, -, -, -, hleft⟩ := hinv
    exact ⟨B', hrep, hleft⟩
  · obtain ⟨s', heq, -⟩ := hinv.exec hT h.keyed hop
    exact ⟨s', heq⟩

end

/-- A dict with two channels. -/
def twoChannels : Dict SdsName ℕ where
  cells := [some ⟨letter 97, 1, none⟩, some ⟨letter 98, 2, none⟩]
  table := [none, none, some 0, some 1]
  size := 4
  sizemask := 3
  used := 2
  freedKeys := []
  freedVals := []

/-- The dict with two channels when the first has been deleted. -/
def oneChannel : Dict SdsName ℕ where
  cells := [none, some ⟨letter 98, 2, none⟩]
  table := [none, none, none, some 1]
  size := 4
  sizemask := 3
  used := 1
  freedKeys := [letter 97]
  freedVals := [1]

theorem exists_rep_twoChannels : ∃ B, Rep callbackDict twoChannels B := by
  have hfits : FitAll callbackDict.keyCompare ([] : List (SdsName × ℕ))
      [.add (letter 97) 1, .add (letter 98) 2] := by
    refine ⟨?_, ?_, trivial⟩ <;> change _ < 2 ^ 30 <;> decide
  obtain ⟨ht, B, heq, hrep, -⟩ := callbackDict.run_rep callbackDict_lawful rep_dictCreate
    (List.Perm.refl []) hfits accounts_dictCreate
  obtain rfl : twoChannels = ht := congrArg Prod.snd (Except.ok.inj heq)
  exact ⟨B, hrep⟩

/-- The first channel is deleted when it has been returned. -/
theorem Sweep.run_seen_twoChannels : ∃ B s, Rep callbackDict twoChannels B ∧
    Run (guard (Sweep.Allows callbackDict) (Sweep.step callbackDict)) (Sweep.start twoChannels)
      [.next, .delete (letter 97), .next, .next] s ∧
    s.finished = true ∧ s.seen.Perm (contents B) := by
  obtain ⟨B, hrep⟩ := exists_rep_twoChannels
  have hsize : oneChannel.size ≤ 2 ^ 30 := by decide
  have hlt : 3 < oneChannel.size := by decide
  have hkey : callbackDict.keyCompare (letter 97) (letter 97) := by
    rw [callbackDict_keyCompare, decide_eq_true_eq]
  have h₁ : Sweep.step callbackDict (Sweep.start twoChannels) .next
      ⟨twoChannels, ⟨2, some 0, none⟩, [(letter 97, 1)], false⟩ := rfl
  have h₂ : Sweep.step callbackDict ⟨twoChannels, ⟨2, some 0, none⟩, [(letter 97, 1)], false⟩
      (.delete (letter 97)) ⟨oneChannel, ⟨2, some 0, none⟩, [(letter 97, 1)], false⟩ := rfl
  have h₃ : Sweep.step callbackDict ⟨oneChannel, ⟨2, some 0, none⟩, [(letter 97, 1)], false⟩ .next
      ⟨oneChannel, ⟨3, some 1, none⟩, [(letter 97, 1), (letter 98, 2)], false⟩ := by
    have hnext : dictNext oneChannel ⟨2, some 0, none⟩ = .ok (some 1, ⟨3, some 1, none⟩) :=
      (nextLoop_link rfl).trans (nextLoop_head hsize hlt rfl rfl rfl rfl)
    rw [Sweep.step, Sweep.exec, hnext]
    rfl
  have h₄ : Sweep.step callbackDict
      ⟨oneChannel, ⟨3, some 1, none⟩, [(letter 97, 1), (letter 98, 2)], false⟩ .next
      ⟨oneChannel, ⟨4, none, none⟩, [(letter 97, 1), (letter 98, 2)], true⟩ := by
    have hnext : dictNext oneChannel ⟨3, some 1, none⟩ = .ok (none, ⟨4, none, none⟩) :=
      (nextLoop_link rfl).trans (nextLoop_end hsize rfl rfl)
    rw [Sweep.step, Sweep.exec, hnext]
    rfl
  have r₀ : Run (guard (Sweep.Allows callbackDict) (Sweep.step callbackDict))
      (Sweep.start twoChannels) [] (Sweep.start twoChannels) := .nil
  have r₁ := r₀.snoc ⟨show Sweep.Allows _ _ .next from rfl, h₁⟩
  have r₂ := r₁.snoc ⟨show Sweep.Allows _ _ (.delete (letter 97)) from
    ⟨_, List.mem_singleton_self _, hkey⟩, h₂⟩
  have r₃ := r₂.snoc ⟨show Sweep.Allows _ _ .next from rfl, h₃⟩
  have hrun := r₃.snoc ⟨show Sweep.Allows _ _ .next from rfl, h₄⟩
  obtain ⟨rest, hseen, hrest⟩ := (Sweep.run_seen callbackDict_lawful hrep hrun).1
  refine ⟨B, _, hrep, hrun, rfl, ?_⟩
  rw [hrest rfl, List.append_nil] at hseen
  exact hseen

end Hiredis

end BackendStudy
