import BackendStudy.Hiredis.Dict
import BackendStudy.Lib.Assoc

/-!
# The lists of a hash table

The slots of a table point to lists of entries, the buckets of the table
(`BackendStudy.Hiredis.Tabled`), and an entry is in the bucket that the hash of its key gives
(`BackendStudy.Hiredis.Hashed`). `BackendStudy.Hiredis.Rep` collects what holds of a dict between
two calls: every entry is in one bucket and in one place of it, nothing else is allocated, no two
keys compare equal, and there are at most as many entries as slots.

An expansion moves all entries into the buckets of the new table
(`BackendStudy.Hiredis.dictExpand_rep`); with fewer entries than `2 ^ 30` there is always a table
that is large enough (`BackendStudy.Hiredis.dictExpandIfNeeded_rep`).
-/

namespace BackendStudy

namespace Hiredis

open Slots Arena

variable {K V : Type}

/-- The key and the value of an entry. -/
def DictEntry.item (e : DictEntry K V) : K × V := (e.key, e.val)

/-- A list of entries, with their keys and values. -/
def Chained (cells : List (Option (DictEntry K V))) (p : Option ℕ) (l : List (ℕ × K × V)) : Prop :=
  Linked DictEntry.next DictEntry.item cells p l none

/-- The numbers of entries. -/
def numbers (l : List (ℕ × K × V)) : List ℕ := l.map Prod.fst

/-- The keys and values in buckets. -/
def contents (B : List (List (ℕ × K × V))) : List (K × V) := B.flatten.map Prod.snd

/-- **The buckets of a table.** -/
def Tabled (cells : List (Option (DictEntry K V))) (table : List (Option ℕ))
    (B : List (List (ℕ × K × V))) : Prop :=
  List.Forall₂ (Chained cells) table B

/-- The keys of a bucket have the hash of the bucket. -/
def Hashed (T : DictType K) (sizemask : ℕ) (B : List (List (ℕ × K × V))) : Prop :=
  ∀ i l, B[i]? = some l → ∀ x ∈ l, T.slot x.2.1 sizemask = i

/-- The size of a table: none yet, or a power of two. -/
def Sized (n : ℕ) : Prop := n = 0 ∨ ∃ k, 2 ≤ k ∧ k ≤ 30 ∧ n = 2 ^ k

/-- **The functions of a type agree**: keys that compare equal have one hash. -/
structure DictType.Lawful (T : DictType K) : Prop where
  /-- The order of the arguments does not matter. -/
  symm : ∀ k k', T.keyCompare k k' = T.keyCompare k' k
  /-- Two keys that compare equal to a key compare equal. -/
  trans : ∀ k k' k'', T.keyCompare k k' → T.keyCompare k' k'' → T.keyCompare k k''
  /-- Keys that compare equal have one hash. -/
  hash : ∀ k k', T.keyCompare k k' → T.hashFunction k = T.hashFunction k'

/-- **A dict and its buckets.** -/
structure Rep (T : DictType K) (ht : Dict K V) (B : List (List (ℕ × K × V))) : Prop where
  /-- The slots point to the buckets. -/
  tabled : Tabled ht.cells ht.table B
  /-- An entry is in one place. -/
  nodup : (numbers B.flatten).Nodup
  /-- Every entry is in a bucket. -/
  only : ∀ a c, cell ht.cells a = some c → a ∈ numbers B.flatten
  /-- The keys are where their hashes say. -/
  hashed : Hashed T ht.sizemask B
  /-- No two keys compare equal. -/
  keyed : Assoc.Keyed T.keyCompare (contents B)
  /-- `used` is the number of entries. -/
  used : ht.used = B.flatten.length
  /-- The size of the table. -/
  sized : Sized ht.size
  /-- There is a bucket for every slot. -/
  length : B.length = ht.size
  /-- The mask. -/
  mask : ht.sizemask = ht.size - 1
  /-- There is a slot for every entry. -/
  room : ht.used ≤ ht.size

section

variable {T : DictType K} {ht d : Dict K V} {cells cells' : List (Option (DictEntry K V))}
  {table A C : List (Option ℕ)} {B A' C' : List (List (ℕ × K × V))} {l l' : List (ℕ × K × V)}
  {p : Option ℕ} {x : ℕ × K × V} {mask m i n size : ℕ} {key : K}

@[simp] theorem numbers_nil : numbers ([] : List (ℕ × K × V)) = [] := rfl

@[simp] theorem numbers_cons : numbers (x :: l) = x.1 :: numbers l := rfl

@[simp] theorem numbers_append : numbers (l ++ l') = numbers l ++ numbers l' := List.map_append

theorem mem_numbers (h : x ∈ l) : x.1 ∈ numbers l := List.mem_map_of_mem h

/-! ### Tables and their buckets -/

/-- Buckets read their own entries only. -/
theorem Tabled.congr (h : Tabled cells table B)
    (he : ∀ a ∈ numbers B.flatten, cell cells' a = cell cells a) : Tabled cells' table B := by
  induction h with
  | nil => exact List.Forall₂.nil
  | cons hp _ ih =>
    rw [List.flatten_cons, numbers_append] at he
    refine List.Forall₂.cons (Linked.congr hp fun a ha => he a (List.mem_append_left _ ha)) ?_
    exact ih fun a ha => he a (List.mem_append_right _ ha)

/-- **A table cut at a slot.** -/
theorem Tabled.cut (h : Tabled cells table B) (hi : i < B.length) : ∃ A p C A' l C',
    table = A ++ p :: C ∧ B = A' ++ l :: C' ∧ A.length = i ∧ A'.length = i ∧
      Tabled cells A A' ∧ Chained cells p l ∧ Tabled cells C C' := by
  induction h generalizing i with
  | nil => exact absurd hi (by simp)
  | @cons p l table B hp htable ih =>
    cases i with
    | zero => exact ⟨[], p, table, [], l, B, rfl, rfl, rfl, rfl, .nil, hp, htable⟩
    | succ i =>
      obtain ⟨A, q, C, A', l', C', rfl, rfl, hA, hA', htA, hq, htC⟩ :=
        ih (Nat.lt_of_succ_lt_succ hi)
      exact ⟨p :: A, q, C, l :: A', l', C', rfl, rfl, congrArg (· + 1) hA, congrArg (· + 1) hA',
        .cons hp htA, hq, htC⟩

/-- A table put together at a slot. -/
theorem Tabled.glue (hA : Tabled cells A A') (hp : Chained cells p l) (hC : Tabled cells C C') :
    Tabled cells (A ++ p :: C) (A' ++ l :: C') := by
  induction hA with
  | nil => exact .cons hp hC
  | cons hq _ ih => exact .cons hq ih

theorem Tabled.length_eq (h : Tabled cells table B) : table.length = B.length :=
  List.Forall₂.length_eq h

/-- Empty slots have empty buckets. -/
theorem tabled_replicate : Tabled cells (List.replicate n none)
    (List.replicate n ([] : List (ℕ × K × V))) := by
  induction n with
  | zero => exact .nil
  | succ n ih => exact .cons rfl ih

theorem hashed_replicate : Hashed T mask (List.replicate n ([] : List (ℕ × K × V))) := by
  intro i l hl x hx
  rw [List.getElem?_replicate] at hl
  split_ifs at hl
  obtain rfl := Option.some.inj hl
  exact absurd hx List.not_mem_nil

/-- A bucket of a table in which the keys are where their hashes say. -/
theorem Hashed.middle (h : Hashed T mask (A' ++ l :: C')) :
    ∀ x ∈ l, T.slot x.2.1 mask = A'.length :=
  h A'.length l (by simp)

/-- A bucket is exchanged for one with keys of the same hash. -/
theorem Hashed.exchange (h : Hashed T mask (A' ++ l :: C'))
    (hl' : ∀ x ∈ l', T.slot x.2.1 mask = A'.length) : Hashed T mask (A' ++ l' :: C') := by
  intro i m hm
  rcases Nat.lt_trichotomy i A'.length with hlt | rfl | hlt
  · refine h i m ?_
    rw [List.getElem?_append_left hlt] at hm ⊢
    exact hm
  · rw [List.getElem?_append_right (le_refl _), Nat.sub_self, List.getElem?_cons_zero] at hm
    obtain rfl := Option.some.inj hm
    exact hl'
  · obtain ⟨d, hd⟩ := Nat.exists_eq_add_of_lt hlt
    refine h i m ?_
    rw [List.getElem?_append_right hlt.le] at hm ⊢
    rw [show i - A'.length = d + 1 by omega] at hm ⊢
    exact hm

/-- A key is not in the buckets of other hashes. -/
theorem Hashed.off_middle (h : Hashed T mask (A' ++ l :: C')) (hkey : T.slot key mask = A'.length) :
    ∀ x ∈ A'.flatten ++ C'.flatten, T.slot x.2.1 mask ≠ T.slot key mask := by
  intro x hx
  rw [hkey]
  rcases List.mem_append.mp hx with hx | hx <;> obtain ⟨m, hm, hxm⟩ := List.mem_flatten.mp hx
  · obtain ⟨i, hi, rfl⟩ := List.mem_iff_getElem.mp hm
    rw [h i A'[i] (by rw [List.getElem?_append_left hi, List.getElem?_eq_getElem hi]) x hxm]
    omega
  · obtain ⟨i, hi, rfl⟩ := List.mem_iff_getElem.mp hm
    have hget : (A' ++ l :: C')[A'.length + (i + 1)]? = some C'[i] := by
      rw [List.getElem?_append_right (by omega), Nat.add_sub_cancel_left, List.getElem?_cons_succ,
        List.getElem?_eq_getElem hi]
    rw [h _ _ hget x hxm]
    omega

/-! ### Sizes -/

theorem Sized.le (h : Sized n) : n ≤ 2 ^ 30 := by
  obtain rfl | ⟨k, -, hk, rfl⟩ := h
  · exact Nat.zero_le _
  · exact Nat.pow_le_pow_right (by omega) hk

theorem nextPowerLoop_eq {fuel k : ℕ} (hk : k ≤ 30) (hsize : size ≤ 2 ^ 30)
    (hfuel : 30 < fuel + k) :
    ∃ k', k ≤ k' ∧ k' ≤ 30 ∧ nextPowerLoop size fuel (2 ^ k) = 2 ^ k' ∧ size ≤ 2 ^ k' := by
  induction fuel generalizing k with
  | zero => omega
  | succ fuel ih =>
    rw [nextPowerLoop]
    split_ifs with hge
    · exact ⟨k, le_refl k, hk, rfl, hge⟩
    · have hlt : k < 30 := by
        refine Nat.lt_of_le_of_ne hk ?_
        rintro rfl
        exact hge hsize
      obtain ⟨k', hle, hk', heq, hsize'⟩ := ih (k := k + 1) hlt (by omega)
      exact ⟨k', by omega, hk', by rw [← Nat.pow_succ]; exact heq, hsize'⟩

/-- **The next power of two.** -/
theorem dictNextPower_eq (hsize : size ≤ 2 ^ 30) :
    ∃ k, 2 ≤ k ∧ k ≤ 30 ∧ dictNextPower size = 2 ^ k ∧ size ≤ 2 ^ k := by
  rw [dictNextPower, if_neg (by omega)]
  exact nextPowerLoop_eq (k := 2) (by omega) hsize (by omega)

/-- A hash under the mask of a table is a slot of it. -/
theorem slot_lt (h : 0 < n) : T.slot key (n - 1) < n := by
  have := @Nat.and_le_right (T.hashFunction key).toNat (n - 1)
  rw [DictType.slot]
  omega

theorem decr_eq (h : 0 < n) (hn : n < 2 ^ 64) : decr n = n - 1 := by
  rw [decr]
  omega

theorem incr_eq (hn : n < 2 ^ 30) : incr n = n + 1 := by
  rw [incr]
  omega

/-! ### Expansion -/

/-- Only the cells of a list have changed, and none has come or gone. -/
structure Rewritten (l : List ℕ) (cells cells' : List (Option (DictEntry K V))) : Prop where
  /-- The other cells are as they were. -/
  off : ∀ a ∉ l, cell cells' a = cell cells a
  /-- The same cells are there. -/
  live : ∀ a, (cell cells' a).isSome = (cell cells a).isSome
  /-- The arena has not grown. -/
  length : cells'.length = cells.length

theorem Rewritten.refl (l : List ℕ) : Rewritten l cells cells :=
  ⟨fun _ _ => rfl, fun _ => rfl, rfl⟩

theorem Rewritten.trans {k l : List ℕ} {cells'' : List (Option (DictEntry K V))}
    (h : Rewritten k cells cells') (h' : Rewritten l cells' cells'') :
    Rewritten (k ++ l) cells cells'' := by
  refine ⟨fun a ha => ?_, fun a => (h'.live a).trans (h.live a), h'.length.trans h.length⟩
  rw [List.mem_append, not_or] at ha
  rw [h'.off a ha.2, h.off a ha.1]

theorem rewritten_set {c c' : DictEntry K V} {a : ℕ} (ha : cell cells a = some c) :
    Rewritten [a] cells (cells.set a (some c')) := by
  have hlt := lt_length_of_cell ha
  refine ⟨fun b hb => ?_, fun b => ?_, List.length_set⟩
  · rw [cell_set hlt, if_neg]
    rintro rfl
    exact hb (List.mem_singleton_self a)
  · rw [cell_set hlt]
    split_ifs with hab
    · rw [← hab, ha]
      rfl
    · rfl

/-- **A list is moved** to the heads of the buckets of its keys. -/
theorem moveEntries_eq {fuel : ℕ} {N : List (List (ℕ × K × V))} {he : Option ℕ}
    (hl : Chained d.cells he l) (hn : Tabled d.cells table N) (hh : Hashed T mask N)
    (hnodup : (numbers (l ++ N.flatten)).Nodup) (hfuel : l.length ≤ fuel)
    (hslot : ∀ x ∈ l, T.slot x.2.1 mask < N.length) (hused : l.length ≤ d.used)
    (hlt : d.used < 2 ^ 64) :
    ∃ cells' n' N', moveEntries T mask fuel d table he =
        .ok ({ d with cells := cells', used := d.used - l.length }, n') ∧
      Tabled cells' n' N' ∧ Hashed T mask N' ∧ N'.length = N.length ∧
      (N'.flatten).Perm (l ++ N.flatten) ∧ Rewritten (numbers l) d.cells cells' := by
  induction l generalizing he fuel d table N with
  | nil =>
    obtain rfl : he = none := hl
    cases fuel <;> exact ⟨d.cells, table, N, rfl, hn, hh, rfl, List.Perm.refl _, .refl _⟩
  | cons x l ih =>
    obtain ⟨a, i⟩ := x
    obtain ⟨rfl, ⟨k, v, next⟩, hc, hi, hl⟩ := hl
    obtain rfl : (k, v) = i := hi
    rw [List.length_cons] at hfuel hused
    obtain ⟨fuel, rfl⟩ : ∃ f, fuel = f + 1 := ⟨fuel - 1, by omega⟩
    have hdecr : decr d.used = d.used - 1 := decr_eq (by omega) hlt
    obtain ⟨hxl, hnodup'⟩ := List.nodup_cons.mp hnodup
    obtain ⟨A, q, C, A', b, C', rfl, rfl, hA, hA', htA, hq, htC⟩ :=
      hn.cut (hslot (a, k, v) List.mem_cons_self)
    have hb : ∀ y ∈ (a, k, v) :: b, T.slot y.2.1 mask = A'.length := by
      intro y hy
      rcases List.mem_cons.mp hy with rfl | hy
      · exact hA'.symm
      · exact hh.middle y hy
    -- the cell of the entry is rewritten, and no other list reads it
    have hrew : Rewritten [a] d.cells (d.cells.set a (some ⟨k, v, q⟩)) := rewritten_set hc
    have hoff : ∀ {m : List (ℕ × K × V)}, (∀ y ∈ m, y ∈ l ++ (A' ++ b :: C').flatten) →
        ∀ e ∈ numbers m, cell (d.cells.set a (some ⟨k, v, q⟩)) e = cell d.cells e := by
      intro m hm e he
      obtain ⟨y, hy, rfl⟩ := List.mem_map.mp he
      refine hrew.off y.1 fun hyx => hxl ?_
      have hmem := mem_numbers (hm y hy)
      rw [List.mem_singleton.mp hyx] at hmem
      exact hmem
    have hl₁ := Linked.congr hl (hoff fun y hy => List.mem_append_left _ hy)
    have hb₁ : Chained (d.cells.set a (some ⟨k, v, q⟩)) (some a) ((a, k, v) :: b) := by
      refine ⟨rfl, ⟨k, v, q⟩, ?_, rfl, Linked.congr hq (hoff fun y hy => ?_)⟩
      · rw [cell_set (lt_length_of_cell hc), if_pos rfl]
      · simp [hy]
    have hn₁ := (htA.congr (hoff fun y hy => by simp [hy])).glue hb₁
      (htC.congr (hoff fun y hy => by simp [hy]))
    have hperm : (l ++ (A' ++ ((a, k, v) :: b) :: C').flatten).Perm
        ((a, k, v) :: l ++ (A' ++ b :: C').flatten) := by
      simp only [List.flatten_append, List.flatten_cons, List.cons_append]
      rw [← List.append_assoc, ← List.append_assoc l]
      exact List.perm_middle
    obtain ⟨cells', n', N', heq, hN', hhN', hlen, hflat, hmoved⟩ :=
      ih (d := { d with cells := d.cells.set a (some ⟨k, v, q⟩), used := decr d.used })
        hl₁ hn₁ (hh.exchange hb) ((hperm.map Prod.fst).nodup_iff.mpr hnodup)
        (show l.length ≤ fuel by omega)
        (fun y hy => by simpa using hslot y (List.mem_cons_of_mem _ hy))
        (by simp only [hdecr]; omega) (by simp only [hdecr]; omega)
    refine ⟨cells', n', N', ?_, hN', hhN', by simpa using hlen, hflat.trans hperm,
      hrew.trans hmoved⟩
    rw [moveEntries, load_of_cell hc, ok_bind]
    simp only
    rw [get_at hA.symm, ok_bind, store_of_cell hc, ok_bind, put_at hA.symm, ok_bind, heq]
    simp only [hdecr, List.length_cons, Nat.sub_sub, Nat.add_comm 1]

/-- **All buckets are moved**: slot after slot, until no entry is left. -/
theorem moveSlots_eq {R N : List (List (ℕ × K × V))}
    (hr : Tabled d.cells (d.table.drop i) R) (hn : Tabled d.cells table N)
    (hh : Hashed T m N) (hnodup : (numbers (R.flatten ++ N.flatten)).Nodup)
    (hslot : ∀ x ∈ R.flatten, T.slot x.2.1 m < N.length) (hused : d.used = R.flatten.length)
    (hlt : d.used < 2 ^ 64) :
    ∃ cells' n' N', moveSlots T m R.length i d table =
        .ok ({ d with cells := cells', used := 0 }, n') ∧
      Tabled cells' n' N' ∧ Hashed T m N' ∧ N'.length = N.length ∧
      (N'.flatten).Perm (R.flatten ++ N.flatten) ∧
      Rewritten (numbers R.flatten) d.cells cells' := by
  induction R generalizing i d table N with
  | nil =>
    refine ⟨d.cells, table, N, ?_, hn, hh, rfl, List.Perm.refl _, .refl _⟩
    rw [List.length_nil, moveSlots, show (0 : ℕ) = d.used from hused.symm]
  | cons l R ih =>
    obtain ⟨p, rest, hp, hrest, hdrop⟩ := List.forall₂_cons_right_iff.mp hr
    have hget : d.table[i]? = some p := by
      rw [← Nat.add_zero i, ← List.getElem?_drop, hdrop]
      rfl
    rw [List.length_cons, moveSlots]
    split_ifs with hpos
    · rw [List.flatten_cons] at hnodup hslot hused
      rw [List.length_append] at hused
      rw [List.append_assoc] at hnodup
      obtain ⟨hnl, hnr, hdisj⟩ := List.nodup_append.mp (by simpa using hnodup)
      obtain ⟨cells₁, n₁, N₁, heq₁, hn₁, hh₁, hlen₁, hflat₁, hrew₁⟩ :=
        moveEntries_eq hp hn hh (by
          rw [numbers_append]
          refine List.nodup_append.mpr ⟨hnl, (List.nodup_append.mp hnr).2.1, fun a ha b hb => ?_⟩
          exact hdisj a ha b (List.mem_append_right _ hb)) (Linked.length_le hp)
          (fun x hx => hslot x (List.mem_append_left _ hx)) (by omega) hlt
      -- the buckets that are left are not on the list that has been moved
      have hr₁ : Tabled cells₁ (d.table.drop (i + 1)) R := by
        rw [← List.tail_drop, hdrop]
        refine Tabled.congr hrest fun a ha => hrew₁.off a fun hal => ?_
        exact hdisj a hal a (List.mem_append_left _ ha) rfl
      have hperm : (R.flatten ++ N₁.flatten).Perm (l ++ (R.flatten ++ N.flatten)) := by
        refine (hflat₁.append_left _).trans ?_
        rw [← List.append_assoc, ← List.append_assoc]
        exact List.perm_append_comm.append_right _
      obtain ⟨cells', n', N', heq, hN', hh', hlen', hflat', hrew'⟩ :=
        ih (d := { d with cells := cells₁, used := d.used - l.length }) hr₁ hn₁ hh₁
          ((hperm.map Prod.fst).nodup_iff.mpr hnodup)
          (fun x hx => hlen₁ ▸ hslot x (List.mem_append_right _ hx)) (by simp only; omega)
          (by simp only; omega)
      refine ⟨cells', n', N', ?_, hN', hh', hlen'.trans hlen₁, ?_, ?_⟩
      · rw [get_of_getElem? hget, ok_bind, heq₁, ok_bind]
        exact heq
      · rw [List.flatten_cons, List.append_assoc]
        exact hflat'.trans hperm
      · rw [List.flatten_cons, numbers_append]
        exact hrew₁.trans hrew'
    · have hzero : d.used = 0 := by omega
      have hnil : (l :: R).flatten = [] := List.eq_nil_of_length_eq_zero (hused ▸ hzero)
      refine ⟨d.cells, table, N, ?_, hn, hh, rfl, by rw [hnil]; rfl, .refl _⟩
      rw [← hzero]

/-- **An expansion** to a size that is large enough. -/
theorem dictExpand_rep (hT : T.Lawful) (h : Rep T ht B) (hused : ht.used ≤ size)
    (hsize : size ≤ 2 ^ 30) :
    ∃ ht' B', dictExpand T ht size = .ok (.ok, ht') ∧ Rep T ht' B' ∧ (B'.flatten).Perm B.flatten ∧
      ht'.size = dictNextPower size ∧ ht'.freedKeys = ht.freedKeys ∧
        ht'.freedVals = ht.freedVals := by
  obtain ⟨k, hk2, hk30, hpow, hle⟩ := dictNextPower_eq hsize
  have hpos : 0 < dictNextPower size := hpow ▸ Nat.two_pow_pos k
  have hempty : (List.replicate (dictNextPower size) ([] : List (ℕ × K × V))).flatten = [] := by
    simp
  obtain ⟨cells', n', N', heq, hN', hh', hlen, hflat, hrew⟩ :=
    moveSlots_eq (T := T) (m := dictNextPower size - 1) (i := 0) (d := ht) (R := B)
      h.tabled (tabled_replicate (n := dictNextPower size)) hashed_replicate
      (by rw [hempty, List.append_nil]; exact h.nodup)
      (fun x _ => by rw [List.length_replicate]; exact slot_lt hpos) h.used
      (by have := h.sized.le; have := h.room; omega)
  rw [hempty, List.append_nil] at hflat
  rw [List.length_replicate] at hlen
  refine ⟨{ ht with
      cells := cells'
      table := n'
      size := dictNextPower size
      sizemask := dictNextPower size - 1 }, N', ?_, ?_, hflat, rfl, rfl, rfl⟩
  · rw [dictExpand, if_neg (by omega), ← h.length, heq]
    rfl
  · refine ⟨hN', (hflat.map Prod.fst).nodup_iff.mpr h.nodup, fun a c hc => ?_, hh', ?_, ?_,
      .inr ⟨k, hk2, hk30, hpow⟩, hlen, rfl, ?_⟩
    · obtain ⟨c', hc'⟩ := Option.isSome_iff_exists.mp ((hrew.live a).symm.trans (by simp [hc]))
      exact (hflat.map Prod.fst).mem_iff.mpr (h.only a c' hc')
    · exact h.keyed.perm hT.symm (hflat.map Prod.snd).symm
    · exact h.used.trans hflat.length_eq.symm
    · exact hused.trans (hpow ▸ hle)

/-- **There is room** for one more entry, after an expansion if need be. -/
theorem dictExpandIfNeeded_rep (hT : T.Lawful) (h : Rep T ht B) (hused : ht.used < 2 ^ 30) :
    ∃ ht' B', dictExpandIfNeeded T ht = .ok (.ok, ht') ∧ Rep T ht' B' ∧
      (B'.flatten).Perm B.flatten ∧ ht'.used < ht'.size ∧ ht'.freedKeys = ht.freedKeys ∧
        ht'.freedVals = ht.freedVals := by
  have hroom := h.room
  -- after an expansion to more than there are entries
  have hexpand : ∀ n, ht.used < n → n ≤ 2 ^ 30 → ∃ ht' B', dictExpand T ht n = .ok (.ok, ht') ∧
      Rep T ht' B' ∧ (B'.flatten).Perm B.flatten ∧ ht'.used < ht'.size ∧
        ht'.freedKeys = ht.freedKeys ∧ ht'.freedVals = ht.freedVals := by
    intro n hlt hn
    obtain ⟨ht', B', heq, hrep, hflat, hsize, hfreed⟩ := dictExpand_rep hT h hlt.le hn
    obtain ⟨k, -, -, hpow, hle⟩ := dictNextPower_eq hn
    refine ⟨ht', B', heq, hrep, hflat, ?_, hfreed⟩
    rw [hrep.used, hflat.length_eq, ← h.used, hsize, hpow]
    omega
  rw [dictExpandIfNeeded]
  split_ifs with hzero hfull
  · exact hexpand _ (by rw [dictHtInitialSize]; omega) (by rw [dictHtInitialSize]; omega)
  · have hsize : ht.size * 2 ≤ 2 ^ 30 := by
      obtain hz | ⟨k, hk2, hk30, hpow⟩ := h.sized
      · omega
      · have hk : k < 30 := by
          by_contra hk
          obtain rfl : k = 30 := by omega
          omega
        rw [hpow, ← Nat.pow_succ]
        exact Nat.pow_le_pow_right (by omega) hk
    rw [Nat.mod_eq_of_lt (by omega)]
    exact hexpand _ (by omega) hsize
  · exact ⟨ht, B, rfl, h, List.Perm.refl _, by omega, rfl, rfl⟩

end

end Hiredis

end BackendStudy
