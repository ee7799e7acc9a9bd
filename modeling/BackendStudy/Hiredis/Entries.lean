import BackendStudy.Hiredis.Buckets

/-!
# Search and update in a hash table

What the calls of a dict do to its buckets: the search of the bucket of a key finds the entry that
a search of all entries would find (`BackendStudy.Hiredis.Rep.find?_bucket`), a new entry goes to
the head of its bucket (`BackendStudy.Hiredis.dictAdd_fresh`), `dictReplace` changes the value of
an entry in its place (`BackendStudy.Hiredis.dictReplace_held`), and `dictDelete` takes an entry
out of its bucket (`BackendStudy.Hiredis.dictDelete_held`). Each keeps
`BackendStudy.Hiredis.Rep`.
-/

namespace BackendStudy

namespace Hiredis

open Slots Arena

section

variable {K V : Type} {T : DictType K} {ht d : Dict K V}
  {cells cells' : List (Option (DictEntry K V))} {table A C : List (Option ℕ)}
  {B A' C' : List (List (ℕ × K × V))} {l l' P Y : List (ℕ × K × V)} {p : Option ℕ}
  {x : ℕ × K × V} {i n fuel : ℕ} {key k : K} {val v : V}

/-! ### The bucket of a key -/

/-- The search along a list. -/
theorem seekKey_eq (hl : Chained cells p l) (hfuel : l.length ≤ fuel) :
    seekKey T key cells fuel p =
      .ok ((l.find? fun x => T.keyCompare key x.2.1).map Prod.fst) := by
  induction l generalizing p fuel with
  | nil =>
    obtain rfl : p = none := hl
    cases fuel <;> rfl
  | cons x l ih =>
    obtain ⟨a, i⟩ := x
    obtain ⟨rfl, ⟨k, v, next⟩, hc, hi, hl⟩ := hl
    obtain rfl : (k, v) = i := hi
    rw [List.length_cons] at hfuel
    obtain ⟨fuel, rfl⟩ : ∃ f, fuel = f + 1 := ⟨fuel - 1, by omega⟩
    rw [seekKey, load_of_cell hc, ok_bind, List.find?_cons]
    simp only
    cases hk : T.keyCompare key k with
    | true => rfl
    | false => exact ih hl (by omega)

/-- **A table cut at the slot of a key.** -/
theorem Rep.cut (h : Rep T ht B) (hpos : 0 < ht.size) (key : K) : ∃ A p C A' l C',
    ht.table = A ++ p :: C ∧ B = A' ++ l :: C' ∧ A.length = T.slot key ht.sizemask ∧
      A'.length = T.slot key ht.sizemask ∧ Tabled ht.cells A A' ∧ Chained ht.cells p l ∧
        Tabled ht.cells C C' := by
  refine h.tabled.cut ?_
  rw [h.length, h.mask]
  exact slot_lt hpos

/-- **The bucket of a key** has its entry, if there is one. -/
theorem Rep.find?_bucket (hT : T.Lawful) (h : Rep T ht (A' ++ l :: C'))
    (hkey : A'.length = T.slot key ht.sizemask) :
    (A' ++ l :: C').flatten.find? (fun x => T.keyCompare key x.2.1) =
      l.find? fun x => T.keyCompare key x.2.1 := by
  have hoff := h.hashed.off_middle hkey.symm
  have hnone : ∀ m : List (ℕ × K × V), (∀ x ∈ m, T.slot x.2.1 ht.sizemask ≠
      T.slot key ht.sizemask) → m.find? (fun x => T.keyCompare key x.2.1) = none := by
    intro m hm
    refine List.find?_eq_none.mpr fun x hx hcmp => hm x hx ?_
    rw [DictType.slot, DictType.slot, hT.hash key x.2.1 hcmp]
  rw [List.flatten_append, List.flatten_cons, List.find?_append, List.find?_append,
    hnone _ fun x hx => hoff x (List.mem_append_left _ hx),
    hnone _ fun x hx => hoff x (List.mem_append_right _ hx), Option.none_or, Option.or_none]

/-- What is found in the buckets. -/
theorem find_contents (B : List (List (ℕ × K × V))) (key : K) :
    Assoc.find T.keyCompare (contents B) key =
      (B.flatten.find? fun x => T.keyCompare key x.2.1).map fun x => x.2.2 := by
  rw [Assoc.find, contents, List.find?_map, Option.map_map]
  rfl

/-- A key that is found, and its place. -/
theorem exists_entry (hf : Assoc.find T.keyCompare (contents B) key = some v) :
    ∃ a k, B.flatten.find? (fun x => T.keyCompare key x.2.1) = some (a, k, v) ∧
      T.keyCompare key k := by
  rw [find_contents, Option.map_eq_some_iff] at hf
  obtain ⟨⟨a, k, v⟩, hx, rfl⟩ := hf
  exact ⟨a, k, hx, List.find?_some (p := fun x : ℕ × K × V => T.keyCompare key x.2.1) hx⟩

/-- **`dictFind`** finds the entry of a key. -/
theorem dictFind_eq (hT : T.Lawful) (h : Rep T ht B) (key : K) : dictFind T ht key =
    .ok ((B.flatten.find? fun x => T.keyCompare key x.2.1).map Prod.fst) := by
  rw [dictFind]
  split_ifs with hzero
  · obtain rfl : B = [] := List.eq_nil_of_length_eq_zero (h.length.trans hzero)
    rfl
  · obtain ⟨A, p, C, A', l, C', hA, rfl, hlenA, hlenA', -, hp, -⟩ := h.cut (by omega) key
    rw [h.find?_bucket hT hlenA', hA, get_at hlenA.symm, ok_bind]
    exact seekKey_eq hp (Linked.length_le hp)

/-- The entry that is found, where it is. -/
theorem Rep.cell_of_mem (h : Rep T ht B) (hx : x ∈ B.flatten) :
    ∃ next, cell ht.cells x.1 = some ⟨x.2.1, x.2.2, next⟩ := by
  obtain ⟨l, hl, hxl⟩ := List.mem_flatten.mp hx
  obtain ⟨i, hi, rfl⟩ := List.mem_iff_getElem.mp hl
  obtain ⟨A, p, C, A', l, C', -, rfl, -, rfl, -, hp, -⟩ := h.tabled.cut hi
  have hxl' : x ∈ l := by simpa using hxl
  obtain ⟨⟨k, v, next⟩, hc, hkv⟩ := Linked.exists_cell hp hxl'
  refine ⟨next, hc.trans ?_⟩
  rw [← hkv]
  rfl

/-! ### Adding an entry -/

/-- **`_dictKeyIndex`** looks for a key once there is room for one more. -/
theorem dictKeyIndex_rep (hT : T.Lawful) (h : Rep T ht B) (hused : ht.used < 2 ^ 30) (key : K) :
    ∃ ht' B', Rep T ht' B' ∧ (B'.flatten).Perm B.flatten ∧ ht'.used < ht'.size ∧
      ht'.freedKeys = ht.freedKeys ∧ ht'.freedVals = ht.freedVals ∧
      dictKeyIndex T ht key = .ok (if (Assoc.find T.keyCompare (contents B) key).isSome then -1
        else (T.slot key ht'.sizemask : ℤ), ht') := by
  obtain ⟨ht', B', heq, hrep, hflat, hroom, hkeys, hvals⟩ := dictExpandIfNeeded_rep hT h hused
  refine ⟨ht', B', hrep, hflat, hroom, hkeys, hvals, ?_⟩
  have hfind : Assoc.find T.keyCompare (contents B) key =
      Assoc.find T.keyCompare (contents B') key :=
    h.keyed.find_perm hT.symm hT.trans (hflat.map Prod.snd).symm
  obtain ⟨A, p, C, A', l, C', hA, rfl, hlenA, hlenA', -, hp, -⟩ := hrep.cut (by omega) key
  have hlt : T.slot key ht'.sizemask < 2 ^ 30 := by
    have := hrep.sized.le
    rw [hrep.mask]
    exact Nat.lt_of_lt_of_le (slot_lt (by omega)) this
  rw [hfind, find_contents, hrep.find?_bucket hT hlenA', dictKeyIndex, heq, ok_bind]
  simp only [reduceCtorEq, if_false]
  rw [hA, get_at hlenA.symm, ok_bind, seekKey_eq hp (Linked.length_le hp), ok_bind]
  cases l.find? fun x => T.keyCompare key x.2.1 with
  | some x => rfl
  | none =>
    have hint : toInt (T.slot key ht'.sizemask) = T.slot key ht'.sizemask :=
      Int.bmod_eq_of_le (by omega) (by omega)
    exact congrArg (fun d => Except.ok (d, ht')) hint

/-- **A key that is there already**: nothing is added. -/
theorem dictAdd_held (hT : T.Lawful) (h : Rep T ht B) (hused : ht.used < 2 ^ 30)
    (hf : Assoc.find T.keyCompare (contents B) key = some v) (val : V) :
    ∃ ht' B', dictAdd T ht key val = .ok (.err, ht') ∧ Rep T ht' B' ∧
      (B'.flatten).Perm B.flatten ∧ ht'.freedKeys = ht.freedKeys ∧
        ht'.freedVals = ht.freedVals := by
  obtain ⟨ht', B', hrep, hflat, -, hkeys, hvals, heq⟩ := dictKeyIndex_rep hT h hused key
  refine ⟨ht', B', ?_, hrep, hflat, hkeys, hvals⟩
  rw [hf] at heq
  rw [dictAdd, heq, ok_bind]
  rfl

/-- **A new key** is added at the head of its bucket. -/
theorem dictAdd_fresh (hT : T.Lawful) (h : Rep T ht B) (hused : ht.used < 2 ^ 30)
    (hf : Assoc.find T.keyCompare (contents B) key = none) (val : V) :
    ∃ ht' B', dictAdd T ht key val = .ok (.ok, ht') ∧ Rep T ht' B' ∧
      (contents B').Perm ((key, val) :: contents B) ∧ ht'.freedKeys = ht.freedKeys ∧
        ht'.freedVals = ht.freedVals := by
  obtain ⟨ht', B', hrep, hflat, hroom, hkeys, hvals, heq⟩ :=
    dictKeyIndex_rep hT h hused key
  rw [hf] at heq
  obtain ⟨A, p, C, A', l, C', hA, rfl, hlenA, hlenA', htA, hp, htC⟩ := hrep.cut (by omega) key
  -- the new cell is behind those of the entries that there are
  have hlive : ∀ a ∈ numbers (A' ++ l :: C').flatten,
      cell (ht'.cells ++ [some ⟨key, val, p⟩]) a = cell ht'.cells a := by
    intro a ha
    obtain ⟨x, hx, rfl⟩ := List.mem_map.mp ha
    obtain ⟨next, hc⟩ := hrep.cell_of_mem hx
    rw [cell_append hc, hc]
  have hnew : ht'.cells.length ∉ numbers (A' ++ l :: C').flatten := by
    intro hmem
    obtain ⟨x, hx, hlen⟩ := List.mem_map.mp hmem
    obtain ⟨next, hc⟩ := hrep.cell_of_mem hx
    exact absurd (lt_length_of_cell hc) (by omega)
  have hperm : ((A' ++ ((ht'.cells.length, key, val) :: l) :: C').flatten).Perm
      ((ht'.cells.length, key, val) :: (A' ++ l :: C').flatten) := by
    simp only [List.flatten_append, List.flatten_cons, List.cons_append]
    exact List.perm_middle
  have hcontents : (contents (A' ++ ((ht'.cells.length, key, val) :: l) :: C')).Perm
      ((key, val) :: contents (A' ++ l :: C')) := hperm.map Prod.snd
  have hnone : Assoc.find T.keyCompare (contents (A' ++ l :: C')) key = none :=
    (h.keyed.find_perm hT.symm hT.trans (hflat.map Prod.snd).symm).symm.trans hf
  refine ⟨{ ht' with
      cells := ht'.cells ++ [some ⟨key, val, p⟩]
      table := A ++ some ht'.cells.length :: C
      used := incr ht'.used },
    A' ++ ((ht'.cells.length, key, val) :: l) :: C', ?_, ?_, ?_, hkeys, hvals⟩
  · rw [dictAdd, heq, ok_bind]
    have hne : ¬((T.slot key ht'.sizemask : ℤ) = -1) := by omega
    simp only [Option.isSome_none, Bool.false_eq_true, if_false, hne]
    rw [hA, slotAt_natCast, get_at hlenA.symm, ok_bind]
    simp only [alloc]
    rw [setSlotAt_natCast, put_at hlenA.symm, ok_bind]
    rfl
  · refine ⟨?_, ?_, fun a c hc => ?_, ?_, ?_, ?_, hrep.sized, ?_, hrep.mask, ?_⟩
    -- the buckets: only the one of the key has a new head
    · refine (htA.congr fun a ha => hlive a ?_).glue ⟨rfl, ⟨key, val, p⟩, cell_append_length, rfl,
        Linked.congr hp fun a ha => hlive a ?_⟩ (htC.congr fun a ha => hlive a ?_)
      all_goals
        rw [List.flatten_append, List.flatten_cons, numbers_append, numbers_append]
        simp only [List.mem_append]
      · exact .inl ha
      · exact .inr (.inl ha)
      · exact .inr (.inr ha)
    · refine (hperm.map Prod.fst).nodup_iff.mpr (List.nodup_cons.mpr ⟨hnew, hrep.nodup⟩)
    · refine (hperm.map Prod.fst).mem_iff.mpr (List.mem_cons.mpr ?_)
      exact (cell_append_eq_some hc).imp And.left fun hc => hrep.only a c hc
    · refine hrep.hashed.exchange fun y hy => ?_
      rcases List.mem_cons.mp hy with rfl | hy
      · exact hlenA'.symm
      · exact hrep.hashed.middle y hy
    -- the key is new, so the keys are still different
    · exact Assoc.Keyed.perm hT.symm (Assoc.keyed_cons.mpr ⟨hnone, hrep.keyed⟩) hcontents.symm
    · rw [hperm.length_eq, List.length_cons, ← hrep.used]
      exact incr_eq (by have := hrep.sized.le; omega)
    · simpa using hrep.length
    · rw [incr_eq (by have := hrep.sized.le; omega)]
      exact hroom
  · exact hcontents.trans ((hflat.map Prod.snd).cons (key, val))

/-! ### Changing and removing an entry -/

/-- **`dictReplace` of a new key** adds it. -/
theorem dictReplace_fresh (hT : T.Lawful) (h : Rep T ht B) (hused : ht.used < 2 ^ 30)
    (hf : Assoc.find T.keyCompare (contents B) key = none) (val : V) :
    ∃ ht' B', dictReplace T ht key val = .ok (true, ht') ∧ Rep T ht' B' ∧
      (contents B').Perm ((key, val) :: contents B) ∧ ht'.freedKeys = ht.freedKeys ∧
        ht'.freedVals = ht.freedVals := by
  obtain ⟨ht', B', heq, hrest⟩ := dictAdd_fresh hT h hused hf val
  refine ⟨ht', B', ?_, hrest⟩
  rw [dictReplace, heq, ok_bind]
  rfl

/-- **A bucket is exchanged** for one with no other entries. -/
theorem Rep.exchange {ht' : Dict K V} {p' : Option ℕ} (h : Rep T ht (A' ++ l :: C'))
    (htA : Tabled ht.cells A A') (htC : Tabled ht.cells C C') (htable : ht'.table = A ++ p' :: C)
    (hsize : ht'.size = ht.size) (hmask : ht'.sizemask = ht.sizemask)
    (hl' : Chained ht'.cells p' l') (hoff : ∀ a ∉ numbers l, cell ht'.cells a = cell ht.cells a)
    (hsub : ∀ a ∈ numbers l', a ∈ numbers l)
    (hlive : ∀ a c, cell ht'.cells a = some c → a ∈ numbers l → a ∈ numbers l')
    (hslot : ∀ x ∈ l', T.slot x.2.1 ht.sizemask = A'.length)
    (hkeyed : Assoc.Keyed T.keyCompare (contents (A' ++ l' :: C')))
    (hused : ht'.used = (A' ++ l' :: C').flatten.length) (hle : ht'.used ≤ ht.used) :
    Rep T ht' (A' ++ l' :: C') := by
  have hnodup := h.nodup
  simp only [List.flatten_append, List.flatten_cons, numbers_append] at hnodup
  obtain ⟨hnA, hnlC, hdA⟩ := List.nodup_append.mp hnodup
  obtain ⟨-, hnC, hdl⟩ := List.nodup_append.mp hnlC
  -- the entries of the other buckets are not in this one
  have hA : ∀ a ∈ numbers A'.flatten, a ∉ numbers l := fun a ha hal =>
    hdA a ha a (List.mem_append_left _ hal) rfl
  have hC : ∀ a ∈ numbers C'.flatten, a ∉ numbers l := fun a ha hal => hdl a hal a ha rfl
  refine ⟨?_, ?_, fun a c hc => ?_, ?_, hkeyed, hused, hsize ▸ h.sized, ?_, ?_, ?_⟩
  · rw [htable]
    exact (htA.congr fun a ha => hoff a (hA a ha)).glue hl' (htC.congr fun a ha => hoff a (hC a ha))
  · simp only [List.flatten_append, List.flatten_cons, numbers_append]
    refine List.nodup_append.mpr ⟨hnA, List.nodup_append.mpr ⟨Linked.nodup hl', hnC, ?_⟩, ?_⟩
    · exact fun a ha b hb => hdl a (hsub a ha) b hb
    · intro a ha b hb
      rcases List.mem_append.mp hb with hb | hb
      · exact hdA a ha b (List.mem_append_left _ (hsub b hb))
      · exact hdA a ha b (List.mem_append_right _ hb)
  · simp only [List.flatten_append, List.flatten_cons, numbers_append, List.mem_append]
    by_cases hal : a ∈ numbers l
    · exact .inr (.inl (hlive a c hc hal))
    · rw [hoff a hal] at hc
      have hmem := h.only a c hc
      simp only [List.flatten_append, List.flatten_cons, numbers_append, List.mem_append] at hmem
      exact hmem.imp_right fun hmem => .inr (hmem.resolve_left hal)
  · rw [hmask]
    exact h.hashed.exchange hslot
  · rw [hsize, ← h.length]
    simp
  · rw [hsize, hmask]
    exact h.mask
  · rw [hsize]
    exact hle.trans h.room

theorem contents_middle : contents (A' ++ (P ++ x :: Y) :: C') =
    contents A' ++ P.map Prod.snd ++ x.2 :: (Y.map Prod.snd ++ contents C') := by
  simp [contents]

theorem contents_without : contents (A' ++ (P ++ Y) :: C') =
    contents A' ++ P.map Prod.snd ++ (Y.map Prod.snd ++ contents C') := by
  simp [contents]

/-- The first entry of a list that a search finds. -/
theorem find?_split {q : ℕ × K × V → Bool} (hf : l.find? q = some x) :
    ∃ P Y, l = P ++ x :: Y ∧ q x ∧ ∀ y ∈ P, q y = false := by
  obtain ⟨hx, P, Y, rfl, hP⟩ := List.find?_eq_some_iff_append.mp hf
  exact ⟨P, Y, rfl, hx, fun y hy => by simpa using hP y hy⟩

/-- **`dictReplace` of a key that is there** changes its value, and frees the old one. -/
theorem dictReplace_held (hT : T.Lawful) (h : Rep T ht B) (hused : ht.used < 2 ^ 30)
    (hf : Assoc.find T.keyCompare (contents B) key = some v) (val : V) :
    ∃ ht' B', dictReplace T ht key val = .ok (false, ht') ∧ Rep T ht' B' ∧
      (contents B').Perm (Assoc.set T.keyCompare (contents B) key val) ∧
        ht'.freedKeys = ht.freedKeys ∧ ht'.freedVals = v :: ht.freedVals := by
  obtain ⟨ht₁, B₁, heq, hrep, hflat, hkeys, hvals⟩ := dictAdd_held hT h hused hf val
  have hperm : (contents B₁).Perm (contents B) := hflat.map Prod.snd
  have hf₁ : Assoc.find T.keyCompare (contents B₁) key = some v :=
    (h.keyed.find_perm hT.symm hT.trans hperm.symm).symm.trans hf
  obtain ⟨a, k, hfind, hk⟩ := exists_entry hf₁
  -- an entry has been found, so there is a table
  have hpos : 0 < ht₁.size := by
    by_contra hzero
    obtain rfl : B₁ = [] := List.eq_nil_of_length_eq_zero (by rw [hrep.length]; omega)
    exact absurd hfind (by simp)
  have hdict := dictFind_eq hT hrep key
  obtain ⟨A, p, C, A', l, C', hA, rfl, hlenA, hlenA', htA, hp, htC⟩ := hrep.cut hpos key
  obtain ⟨next, hc⟩ := hrep.cell_of_mem (List.mem_of_find?_eq_some hfind)
  rw [hfind] at hdict
  rw [hrep.find?_bucket hT hlenA'] at hfind
  obtain ⟨P, Y, rfl, -, -⟩ := find?_split hfind
  -- to set the value in the list of entries is to set it in the bucket
  have hset : Assoc.set T.keyCompare (contents (A' ++ (P ++ (a, k, v) :: Y) :: C')) key val =
      contents (A' ++ (P ++ (a, k, val) :: Y) :: C') := by
    have hkeyed := hrep.keyed
    rw [contents_middle] at hkeyed
    rw [contents_middle, contents_middle, hkeyed.set_middle hT.symm hT.trans hk]
  refine ⟨{ ht₁ with
      cells := ht₁.cells.set a (some ⟨k, val, next⟩)
      freedVals := v :: ht₁.freedVals }, A' ++ (P ++ (a, k, val) :: Y) :: C', ?_, ?_, ?_, hkeys,
    congrArg (v :: ·) hvals⟩
  · rw [dictReplace, heq, ok_bind]
    simp only [reduceCtorEq, if_false]
    rw [hdict, ok_bind]
    simp only [Option.map_some]
    rw [load_of_cell hc, ok_bind, store_of_cell hc]
    rfl
  · have hnum : numbers (P ++ (a, k, val) :: Y) = numbers (P ++ (a, k, v) :: Y) := by simp
    refine hrep.exchange htA htC hA rfl rfl
      (Linked.rewrite hp (Linked.nodup hp) hc rfl rfl) (fun b hb => ?_) (fun b hb => hnum ▸ hb)
      (fun b c _ hb => hnum ▸ hb) (fun y hy => ?_) ?_ ?_ (le_refl _)
    -- of the cells only that of the entry is written
    · rw [cell_set (lt_length_of_cell hc), if_neg]
      rintro rfl
      simp at hb
    · rcases List.mem_append.mp hy with hy | hy
      · exact hrep.hashed.middle y (List.mem_append_left _ hy)
      · rcases List.mem_cons.mp hy with rfl | hy
        · exact hrep.hashed.middle (a, k, v) (by simp)
        · exact hrep.hashed.middle y (by simp [hy])
    · rw [← hset]
      exact hrep.keyed.set
    · exact hrep.used.trans (by simp)
  · rw [← hset]
    exact hperm.map _

/-- To free an entry that is there. -/
theorem freeEntry_eq {a : ℕ} {next : Option ℕ} (hc : cell d.cells a = some ⟨k, v, next⟩)
    (hpos : 0 < d.used) (hlt : d.used < 2 ^ 64) : freeEntry d a = .ok { d with
      cells := d.cells.set a none
      freedKeys := k :: d.freedKeys
      freedVals := v :: d.freedVals
      used := d.used - 1 } := by
  rw [freeEntry, load_of_cell hc, ok_bind, free_of_cell hc, ok_bind, decr_eq hpos hlt]
  rfl

/-- **An entry that has been unlinked** from its bucket is freed. -/
theorem Rep.release {a : ℕ} (h : Rep T ht (A' ++ (P ++ (a, k, v) :: Y) :: C'))
    (htA : Tabled ht.cells A A') (htC : Tabled ht.cells C C')
    (hkeyed : Assoc.Keyed T.keyCompare (contents (A' ++ (P ++ Y) :: C')))
    (hrew : Rewritten (numbers P) ht.cells cells) (hl : Chained cells p (P ++ Y))
    (hnodup : (numbers (P ++ (a, k, v) :: Y)).Nodup) :
    ∃ ht', freeEntry { ht with cells := cells, table := A ++ p :: C } a = .ok ht' ∧
      Rep T ht' (A' ++ (P ++ Y) :: C') ∧ ht'.size = ht.size ∧
        ht'.freedKeys = k :: ht.freedKeys ∧ ht'.freedVals = v :: ht.freedVals := by
  obtain ⟨next, hc⟩ := h.cell_of_mem (x := (a, k, v)) (by simp)
  rw [numbers_append, numbers_cons] at hnodup
  obtain ⟨ha, hnPY⟩ := List.nodup_cons.mp (List.nodup_middle.mp hnodup)
  have hc₁ : cell cells a = some ⟨k, v, next⟩ :=
    (hrew.off a fun haP => ha (List.mem_append_left _ haP)).trans hc
  -- the entry to be freed is one of those counted, so the counter does not wrap around
  have hlen : ht.used = (A' ++ (P ++ Y) :: C').flatten.length + 1 := by
    rw [h.used]
    simp only [List.flatten_append, List.flatten_cons, List.length_append, List.length_cons]
    omega
  have hlt : ht.used < 2 ^ 64 := by
    have := h.sized.le
    have := h.room
    omega
  have hset : ∀ b, b ≠ a → cell (cells.set a none) b = cell cells b := by
    intro b hb
    rw [cell_set (lt_length_of_cell hc₁), if_neg hb.symm]
  refine ⟨_, freeEntry_eq (d := { ht with cells := cells, table := A ++ p :: C }) hc₁
    (by simp only; omega) hlt, ?_, rfl, rfl, rfl⟩
  refine h.exchange htA htC rfl rfl rfl (Linked.congr hl fun b hb => hset b ?_) (fun b hb => ?_)
    (fun b hb => ?_) (fun b c hbc hb => ?_) (fun x hx => h.hashed.middle x ?_) hkeyed ?_
    (Nat.sub_le _ _)
  -- the entry is not one of those that stay linked
  · rintro rfl
    rw [← numbers, numbers_append] at hb
    exact ha hb
  · rw [numbers_append, numbers_cons, List.mem_append, List.mem_cons] at hb
    rw [hset b (by rintro rfl; simp at hb)]
    exact hrew.off b fun hbP => hb (.inl hbP)
  · rw [numbers_append, List.mem_append] at hb
    rw [numbers_append, numbers_cons, List.mem_append, List.mem_cons]
    exact hb.imp_right .inr
  · have hba : b ≠ a := by
      rintro rfl
      rw [cell_set (lt_length_of_cell hc₁), if_pos rfl] at hbc
      exact absurd hbc (by simp)
    rw [numbers_append, numbers_cons, List.mem_append, List.mem_cons] at hb
    rw [numbers_append, List.mem_append]
    exact hb.imp_right fun hb => hb.resolve_left hba
  · rcases List.mem_append.mp hx with hx | hx
    · exact List.mem_append_left _ hx
    · exact List.mem_append_right _ (List.mem_cons_of_mem _ hx)
  · simp only
    omega

/-- The loop of `dictDelete` goes past the entries of other keys. -/
theorem deleteLoop_skip {h : ℕ} {prev q : Option ℕ}
    (hl : Linked DictEntry.next DictEntry.item ht.cells p l q)
    (hother : ∀ y ∈ l, T.keyCompare key y.2.1 = false) :
    deleteLoop T key h ht (l.length + fuel) prev p =
      deleteLoop T key h ht fuel ((l.getLast?.map Prod.fst).or prev) q := by
  induction l generalizing p prev with
  | nil =>
    obtain rfl : p = q := hl
    rw [List.length_nil, Nat.zero_add]
    rfl
  | cons x l ih =>
    obtain ⟨rfl, ⟨k, v, next⟩, hc, hx, hl⟩ := hl
    have hk : T.keyCompare key k = false := by
      have := hother x List.mem_cons_self
      rw [← hx] at this
      exact this
    rw [List.length_cons, Nat.add_right_comm, deleteLoop, load_of_cell hc, ok_bind]
    simp only [hk, Bool.false_eq_true, if_false]
    rw [ih hl fun y hy => hother y (List.mem_cons_of_mem _ hy), List.getLast?_cons]
    cases l.getLast? <;> rfl

/-- `dictDelete` goes along the bucket of the key. -/
theorem dictDelete_eq (hpos : 0 < ht.size) (hA : ht.table = A ++ p :: C)
    (hlenA : A.length = T.slot key ht.sizemask) :
    dictDelete T ht key = deleteLoop T key (T.slot key ht.sizemask) ht ht.cells.length none p := by
  rw [dictDelete, if_neg (Nat.pos_iff_ne_zero.mp hpos)]
  simp only
  rw [hA, get_at hlenA.symm, ok_bind]

/-- **`dictDelete` of a key that is not there.** -/
theorem dictDelete_missing (h : Rep T ht B)
    (hf : Assoc.find T.keyCompare (contents B) key = none) :
    dictDelete T ht key = .ok (.err, ht) := by
  rcases Nat.eq_zero_or_pos ht.size with hzero | hpos
  · rw [dictDelete, if_pos hzero]
    rfl
  · obtain ⟨A, p, C, A', l, C', hA, rfl, hlenA, hlenA', -, hp, -⟩ := h.cut hpos key
    have hother : ∀ y ∈ l, T.keyCompare key y.2.1 = false := fun y hy =>
      Assoc.find_eq_none_iff.mp hf y.2 (by
        rw [contents, List.flatten_append, List.flatten_cons]
        exact List.mem_map_of_mem (List.mem_append_right _ (List.mem_append_left _ hy)))
    obtain ⟨fuel, hfuel⟩ := Nat.exists_eq_add_of_le (Linked.length_le hp)
    rw [dictDelete_eq hpos hA hlenA, hfuel]
    refine (deleteLoop_skip hp hother).trans ?_
    cases fuel <;> rfl

/-- **`dictDelete` of a key that is there** takes its entry out of its bucket, and frees it. -/
theorem dictDelete_held (hT : T.Lawful) (h : Rep T ht B)
    (hf : Assoc.find T.keyCompare (contents B) key = some v) :
    ∃ A' P a k Y C' ht', B = A' ++ (P ++ (a, k, v) :: Y) :: C' ∧ T.keyCompare key k ∧
      dictDelete T ht key = .ok (.ok, ht') ∧ Rep T ht' (A' ++ (P ++ Y) :: C') ∧
        ht'.size = ht.size ∧ ht'.freedKeys = k :: ht.freedKeys ∧
          ht'.freedVals = v :: ht.freedVals := by
  obtain ⟨a, k, hfind, hk⟩ := exists_entry hf
  -- an entry has been found, so there is a table
  have hpos : 0 < ht.size := by
    by_contra hzero
    obtain rfl : B = [] := List.eq_nil_of_length_eq_zero (by rw [h.length]; omega)
    exact absurd hfind (by simp)
  obtain ⟨A, p, C, A', l, C', hA, rfl, hlenA, hlenA', htA, hp, htC⟩ := h.cut hpos key
  rw [h.find?_bucket hT hlenA'] at hfind
  obtain ⟨P, Y, rfl, -, hP⟩ := find?_split hfind
  have hkeyed : Assoc.Keyed T.keyCompare (contents (A' ++ (P ++ Y) :: C')) := by
    have hkeyed := h.keyed
    rw [contents_middle] at hkeyed
    rw [contents_without, ← hkeyed.erase_middle hT.symm hT.trans hk]
    exact hkeyed.erase
  obtain ⟨fuel, hfuel⟩ := Nat.exists_eq_add_of_le (Linked.length_le hp)
  rw [List.length_append, List.length_cons, Nat.add_assoc, Nat.add_right_comm] at hfuel
  have hnodup := Linked.nodup hp
  obtain ⟨q, hlP, rfl, ⟨k₁, v₁, next⟩, hc, hkv, hY⟩ := linked_append.mp hp
  obtain ⟨rfl, rfl⟩ : k = k₁ ∧ v = v₁ := Prod.mk.inj hkv.symm
  -- the loop goes along the list up to the entry, with the entry before it if there is one
  have hdelete : dictDelete T ht key = deleteLoop T key (T.slot key ht.sizemask) ht
      (Y.length + fuel + 1) ((P.getLast?.map Prod.fst).or none) (some a) := by
    rw [dictDelete_eq hpos hA hlenA, hfuel]
    exact deleteLoop_skip hlP hP
  rw [hdelete, deleteLoop, load_of_cell hc, ok_bind]
  simp only [hk, if_true]
  rcases List.eq_nil_or_concat P with rfl | ⟨P, ⟨b, i⟩, rfl⟩
  -- the first entry of the list: the bucket is set to the next one
  · obtain ⟨ht', hfree, hrep, hrest⟩ := h.release htA htC hkeyed (.refl _) hY hnodup
    refine ⟨A', [], a, k, Y, C', ht', rfl, hk, ?_, hrep, hrest⟩
    simp only [List.getLast?_nil, Option.map_none, Option.none_or]
    rw [hA, put_at hlenA.symm, ok_bind, hfree]
    rfl
  -- the entry before it is linked to the next one
  · rw [List.concat_eq_append] at hlP hnodup hkeyed h hfuel ⊢
    obtain ⟨r, hlP', rfl, ⟨kb, vb, nb⟩, hcb, hib, rfl⟩ := linked_append.mp hlP
    obtain rfl : (kb, vb) = i := hib
    have hrew : Rewritten [b] ht.cells (ht.cells.set b (some ⟨kb, vb, next⟩)) :=
      rewritten_set hcb
    have hba : ∀ d ∈ numbers ((a, k, v) :: Y), d ≠ b := by
      rintro d hd rfl
      rw [List.map_append] at hnodup
      exact (List.nodup_append.mp hnodup).2.2 d (by simp) d hd rfl
    have hnodupP : (numbers (P ++ [(b, kb, vb)])).Nodup := by
      rw [← numbers, numbers_append] at hnodup
      exact (List.nodup_append.mp hnodup).1
    have hl : Chained (ht.cells.set b (some ⟨kb, vb, next⟩)) p (P ++ [(b, kb, vb)] ++ Y) := by
      refine linked_append.mpr ⟨next, hlP.relink hnodupP rfl rfl, hY.congr fun d hd => ?_⟩
      refine hrew.off d fun hdb => hba d (List.mem_cons_of_mem _ hd) (List.mem_singleton.mp hdb)
    have hrewP : Rewritten (numbers (P ++ [(b, kb, vb)])) ht.cells
        (ht.cells.set b (some ⟨kb, vb, next⟩)) := by
      rw [numbers_append]
      exact Rewritten.trans (.refl (numbers P)) hrew
    obtain ⟨ht', hfree, hrep, hrest⟩ := h.release htA htC hkeyed hrewP hl hnodup
    refine ⟨A', P ++ [(b, kb, vb)], a, k, Y, C', ht', rfl, hk, ?_, hrep, hrest⟩
    simp only [List.getLast?_append, List.getLast?_singleton, Option.some_or, Option.map_some]
    rw [load_of_cell hcb, ok_bind, store_of_cell hcb, ok_bind]
    simp only
    rw [← hA] at hfree
    rw [hfree]
    rfl

/-! ### Clearing a table -/

/-- Exactly the cells of a list have been freed. -/
structure Cleared (l : List ℕ) (cells cells' : List (Option (DictEntry K V))) : Prop where
  /-- The other cells are as they were. -/
  off : ∀ a ∉ l, cell cells' a = cell cells a
  /-- These are gone. -/
  gone : ∀ a ∈ l, cell cells' a = none

theorem Cleared.nil : Cleared [] cells cells :=
  ⟨fun _ _ => rfl, fun _ ha => absurd ha List.not_mem_nil⟩

theorem Cleared.append {m d : List ℕ} {cells'' : List (Option (DictEntry K V))}
    (h : Cleared m cells cells') (h' : Cleared d cells' cells'') :
    Cleared (m ++ d) cells cells'' := by
  constructor
  · intro a ha
    rw [List.mem_append, not_or] at ha
    rw [h'.off a ha.2, h.off a ha.1]
  · intro a ha
    by_cases had : a ∈ d
    · exact h'.gone a had
    · rw [h'.off a had]
      exact h.gone a ((List.mem_append.mp ha).resolve_right had)

theorem cleared_set {a : ℕ} {c : DictEntry K V} (hc : cell cells a = some c) :
    Cleared [a] cells (cells.set a none) := by
  have hlt := lt_length_of_cell hc
  constructor
  · intro b hb
    rw [cell_set hlt, if_neg]
    rintro rfl
    exact hb (List.mem_singleton_self a)
  · intro b hb
    rw [List.mem_singleton.mp hb, cell_set hlt, if_pos rfl]

/-- The entries of a list are freed, with their keys and values. -/
theorem freeEntries_eq (hl : Chained d.cells p l) (hfuel : l.length ≤ fuel)
    (hused : l.length ≤ d.used) (hlt : d.used < 2 ^ 64) :
    ∃ cells', freeEntries fuel d p = .ok { d with
        cells := cells'
        freedKeys := (l.map fun x => x.2.1).reverse ++ d.freedKeys
        freedVals := (l.map fun x => x.2.2).reverse ++ d.freedVals
        used := d.used - l.length } ∧ Cleared (numbers l) d.cells cells' := by
  induction l generalizing p fuel d with
  | nil =>
    obtain rfl : p = none := hl
    cases fuel <;> exact ⟨d.cells, rfl, Cleared.nil⟩
  | cons x l ih =>
    have hnodup := Linked.nodup hl
    obtain ⟨a, i⟩ := x
    obtain ⟨rfl, ⟨k, v, next⟩, hc, hi, hl⟩ := hl
    obtain rfl : (k, v) = i := hi
    rw [List.length_cons] at hfuel hused
    obtain ⟨fuel, rfl⟩ : ∃ f, fuel = f + 1 := ⟨fuel - 1, by omega⟩
    have hset := cleared_set hc
    obtain ⟨cells', heq, hcleared⟩ := ih (d := { d with
        cells := d.cells.set a none
        freedKeys := k :: d.freedKeys
        freedVals := v :: d.freedVals
        used := d.used - 1 })
      (Linked.congr hl fun b hb => hset.off b fun hba =>
        (List.nodup_cons.mp hnodup).1 (List.mem_singleton.mp hba ▸ hb))
      (show l.length ≤ fuel by omega) (by simp only; omega) (by simp only; omega)
    refine ⟨cells', ?_, hset.append hcleared⟩
    rw [freeEntries, load_of_cell hc, ok_bind, freeEntry_eq hc (by omega) hlt, ok_bind, heq]
    simp only [List.map_cons, List.reverse_cons, List.append_assoc, List.singleton_append,
      List.length_cons, Nat.sub_sub, Nat.add_comm 1]

/-- The entries of all buckets are freed. -/
theorem freeSlots_eq {R : List (List (ℕ × K × V))} (hr : Tabled d.cells (d.table.drop i) R)
    (hnodup : (numbers R.flatten).Nodup) (hused : d.used = R.flatten.length)
    (hlt : d.used < 2 ^ 64) :
    ∃ cells', freeSlots R.length i d = .ok { d with
        cells := cells'
        freedKeys := (R.flatten.map fun x => x.2.1).reverse ++ d.freedKeys
        freedVals := (R.flatten.map fun x => x.2.2).reverse ++ d.freedVals
        used := 0 } ∧ Cleared (numbers R.flatten) d.cells cells' := by
  induction R generalizing i d with
  | nil =>
    refine ⟨d.cells, ?_, Cleared.nil⟩
    rw [List.length_nil, freeSlots, show (0 : ℕ) = d.used from hused.symm]
    rfl
  | cons l R ih =>
    obtain ⟨p, rest, hp, hrest, hdrop⟩ := List.forall₂_cons_right_iff.mp hr
    have hget : d.table[i]? = some p := by
      rw [← Nat.add_zero i, ← List.getElem?_drop, hdrop]
      rfl
    rw [List.length_cons, freeSlots]
    split_ifs with hpos
    -- the list of the slot is freed first, and its entries are in no other one
    · rw [List.flatten_cons] at hnodup hused
      rw [List.length_append] at hused
      rw [numbers_append] at hnodup
      obtain ⟨-, hnR, hdisj⟩ := List.nodup_append.mp hnodup
      obtain ⟨cells₁, heq₁, hcl₁⟩ := freeEntries_eq hp (Linked.length_le hp) (by omega) hlt
      have hr₁ : Tabled cells₁ (d.table.drop (i + 1)) R := by
        rw [← List.tail_drop, hdrop]
        exact Tabled.congr hrest fun a ha => hcl₁.off a fun hal => hdisj a hal a ha rfl
      obtain ⟨cells', heq, hcl⟩ := ih (d := { d with
          cells := cells₁
          freedKeys := (l.map fun x => x.2.1).reverse ++ d.freedKeys
          freedVals := (l.map fun x => x.2.2).reverse ++ d.freedVals
          used := d.used - l.length }) hr₁ hnR (by simp only; omega) (by simp only; omega)
      refine ⟨cells', ?_, ?_⟩
      · rw [get_of_getElem? hget, ok_bind, heq₁, ok_bind, heq]
        simp only [List.flatten_cons, List.map_append, List.reverse_append, List.append_assoc]
      · rw [List.flatten_cons, numbers_append]
        exact hcl₁.append hcl
    -- nothing is counted any more, so the remaining slots are empty and the loop stops early
    · have hzero : d.used = 0 := by omega
      have hnil : (l :: R).flatten = [] := List.eq_nil_of_length_eq_zero (hused ▸ hzero)
      refine ⟨d.cells, ?_, by rw [hnil]; exact Cleared.nil⟩
      rw [hnil, ← hzero]
      rfl

/-- A dict without a table. -/
theorem rep_empty (hcells : ∀ a, cell cells a = none) (freedKeys : List K) (freedVals : List V) :
    Rep T ⟨cells, [], 0, 0, 0, freedKeys, freedVals⟩ [] where
  tabled := .nil
  nodup := List.nodup_nil
  only a c hc := by rw [hcells] at hc; exact absurd hc (by simp)
  hashed i l hl := absurd hl (by simp)
  keyed := Assoc.keyed_nil
  used := rfl
  sized := .inl rfl
  length := rfl
  mask := rfl
  room := le_refl 0

/-- **`_dictClear`** frees every entry. -/
theorem dictClear_rep (h : Rep T ht B) :
    ∃ ht', dictClear ht = .ok ht' ∧ Rep T ht' [] ∧
      ht'.freedKeys = ((contents B).map Prod.fst).reverse ++ ht.freedKeys ∧
        ht'.freedVals = ((contents B).map Prod.snd).reverse ++ ht.freedVals := by
  obtain ⟨cells', heq, hcl⟩ := freeSlots_eq (i := 0) h.tabled h.nodup h.used
    (by have := h.sized.le; have := h.room; omega)
  refine ⟨_, by rw [dictClear, ← h.length, heq]; rfl, rep_empty (fun a => ?_) _ _, ?_, ?_⟩
  · by_cases ha : a ∈ numbers B.flatten
    · exact hcl.gone a ha
    · rw [hcl.off a ha]
      cases hc : cell ht.cells a with
      | none => rfl
      | some c => exact absurd (h.only a c hc) ha
  · simp [contents, Function.comp_def]
  · simp [contents, Function.comp_def]

end

end Hiredis

end BackendStudy
