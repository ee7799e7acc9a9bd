import BackendStudy.Hiredis.Entries

/-!
# Hash tables are association lists

The calls that a program makes to a dict (`BackendStudy.Hiredis.DictOp`) have their counterparts on
association lists (`BackendStudy.Hiredis.assocStep`). In any order they give the same answers on
the dict as on the list (`BackendStudy.Hiredis.DictType.run_answers`), whatever the hash function,
as long as the table has no more than `2 ^ 30` slots: then no list goes in circles, no pointer to an
entry that has been freed is followed and no index is outside of the table.

A dict owns the keys and values it has taken. Each is in an entry or has been passed to its
destructor, and not both, so that a dict that is released has passed each to its destructor as
often as it has taken it (`BackendStudy.Hiredis.DictType.run_freed`).
-/

namespace BackendStudy

namespace Hiredis

open Slots Arena

/-! ### Calls and answers -/

/-- A call of a dict. -/
inductive DictOp (K V : Type)
  /-- `dictAdd`. -/
  | add (key : K) (val : V)
  /-- `dictReplace`. -/
  | replace (key : K) (val : V)
  /-- `dictDelete`. -/
  | delete (key : K)
  /-- `dictFind`, and `dictGetEntryVal` of what it finds. -/
  | find (key : K)
  /-- `dictExpand`. -/
  | expand (size : ℕ)
  /-- `_dictClear`. -/
  | clear

/-- What a call returns. -/
inductive DictAnswer (V : Type)
  /-- `DICT_OK` or `DICT_ERR`. -/
  | status (status : Status)
  /-- What `dictReplace` returns. -/
  | added (new : Bool)
  /-- The value that has been found. -/
  | value (val : Option V)
  deriving DecidableEq

section

variable {K V : Type}

/-- A call of a dict. -/
def DictType.step (T : DictType K) (ht : Dict K V) :
    DictOp K V → Except Fault (DictAnswer V × Dict K V)
  | .add key val => do
    let (status, ht) ← dictAdd T ht key val
    return (.status status, ht)
  | .replace key val => do
    let (new, ht) ← dictReplace T ht key val
    return (.added new, ht)
  | .delete key => do
    let (status, ht) ← dictDelete T ht key
    return (.status status, ht)
  | .find key => do
    match ← dictFind T ht key with
    | none => return (.value none, ht)
    | some he =>
      let entry ← load .noObject ht.cells (some he)
      return (.value (some entry.val), ht)
  | .expand size => do
    let (status, ht) ← dictExpand T ht size
    return (.status status, ht)
  | .clear => do
    let ht ← dictClear ht
    return (.status .ok, ht)

/-- Calls one after another. -/
def DictType.run (T : DictType K) (ht : Dict K V) :
    List (DictOp K V) → Except Fault (List (DictAnswer V) × Dict K V)
  | [] => .ok ([], ht)
  | op :: ops => do
    let (answer, ht) ← T.step ht op
    let (answers, ht) ← T.run ht ops
    return (answer :: answers, ht)

/-- **What a call is to do**, on an association list. -/
def assocStep (eqv : K → K → Bool) (l : List (K × V)) :
    DictOp K V → DictAnswer V × List (K × V)
  | .add key val =>
    if (Assoc.find eqv l key).isSome then (.status .err, l) else (.status .ok, (key, val) :: l)
  | .replace key val =>
    if (Assoc.find eqv l key).isSome then (.added false, Assoc.set eqv l key val)
    else (.added true, (key, val) :: l)
  | .delete key =>
    if (Assoc.find eqv l key).isSome then (.status .ok, Assoc.erase eqv l key)
    else (.status .err, l)
  | .find key => (.value (Assoc.find eqv l key), l)
  | .expand size => (.status (if size < l.length then .err else .ok), l)
  | .clear => (.status .ok, [])

/-- Calls one after another, on an association list. -/
def assocRun (eqv : K → K → Bool) (l : List (K × V)) :
    List (DictOp K V) → List (DictAnswer V) × List (K × V)
  | [] => ([], l)
  | op :: ops =>
    let (answer, l) := assocStep eqv l op
    let (answers, l) := assocRun eqv l ops
    (answer :: answers, l)

/-- A call that leads to no table of more than `2 ^ 30` slots. -/
def DictOp.Fits (l : List (K × V)) : DictOp K V → Prop
  | .add _ _ | .replace _ _ => l.length < 2 ^ 30
  | .expand size => size ≤ 2 ^ 30
  | .delete _ | .find _ | .clear => True

/-- Calls that lead to no table of more than `2 ^ 30` slots. -/
def FitAll (eqv : K → K → Bool) (l : List (K × V)) : List (DictOp K V) → Prop
  | [] => True
  | op :: ops => op.Fits l ∧ FitAll eqv (assocStep eqv l op).2 ops

/-- The keys that a dict takes with a call. -/
def DictOp.takenKeys : DictOp K V → DictAnswer V → List K
  | .add key _, .status .ok => [key]
  | .replace key _, .added true => [key]
  | _, _ => []

/-- The values that a dict takes with a call. -/
def DictOp.takenVals : DictOp K V → DictAnswer V → List V
  | .add _ val, .status .ok => [val]
  | .replace _ val, _ => [val]
  | _, _ => []

/-- The keys and values that a dict has taken are in its entries or have been freed. -/
structure Accounts (ht : Dict K V) (B : List (List (ℕ × K × V))) (keys : List K) (vals : List V) :
    Prop where
  /-- The keys. -/
  keys : ((contents B).map Prod.fst ++ ht.freedKeys).Perm keys
  /-- The values. -/
  vals : ((contents B).map Prod.snd ++ ht.freedVals).Perm vals

variable {T : DictType K} {ht : Dict K V} {B : List (List (ℕ × K × V))} {l : List (K × V)}
  {keys : List K} {vals : List V} {op : DictOp K V}

/-! ### One call -/

theorem Rep.used_eq (h : Rep T ht B) (hl : (contents B).Perm l) : ht.used = l.length := by
  rw [h.used, ← hl.length_eq, contents, List.length_map]

/-- What stood in a list has been moved behind it. -/
theorem perm_moved {α : Type} (X Y F : List α) (a : α) :
    (X ++ Y ++ a :: F).Perm (X ++ a :: Y ++ F) := by
  rw [List.append_assoc, List.append_assoc, List.cons_append]
  exact List.Perm.append_left _ List.perm_middle

/-- Nothing has been taken or freed. -/
theorem Accounts.kept {ht' : Dict K V} {B' : List (List (ℕ × K × V))}
    (ha : Accounts ht B keys vals) (hB' : (contents B').Perm (contents B))
    (hkeys : ht'.freedKeys = ht.freedKeys) (hvals : ht'.freedVals = ht.freedVals) :
    Accounts ht' B' keys vals := by
  constructor
  · rw [hkeys]
    exact ((hB'.map Prod.fst).append_right _).trans ha.keys
  · rw [hvals]
    exact ((hB'.map Prod.snd).append_right _).trans ha.vals

/-- A key and a value have been taken. -/
theorem Accounts.taken {ht' : Dict K V} {B' : List (List (ℕ × K × V))} {key : K} {val : V}
    (ha : Accounts ht B keys vals) (hB' : (contents B').Perm ((key, val) :: contents B))
    (hkeys : ht'.freedKeys = ht.freedKeys) (hvals : ht'.freedVals = ht.freedVals) :
    Accounts ht' B' (key :: keys) (val :: vals) := by
  constructor
  · rw [hkeys]
    exact ((hB'.map Prod.fst).append_right _).trans (ha.keys.cons key)
  · rw [hvals]
    exact ((hB'.map Prod.snd).append_right _).trans (ha.vals.cons val)

/-- A value has been taken for one that has been freed. -/
theorem Accounts.replaced {ht' : Dict K V} {B' : List (List (ℕ × K × V))} {X Y : List (K × V)}
    {k : K} {v val : V} (ha : Accounts ht B keys vals)
    (hB : contents B = X ++ (k, v) :: Y) (hB' : (contents B').Perm (X ++ (k, val) :: Y))
    (hkeys : ht'.freedKeys = ht.freedKeys) (hvals : ht'.freedVals = v :: ht.freedVals) :
    Accounts ht' B' keys (val :: vals) := by
  obtain ⟨hk, hv⟩ := ha
  rw [hB] at hk hv
  constructor
  · rw [hkeys]
    refine ((hB'.map Prod.fst).append_right _).trans ?_
    rw [List.map_append, List.map_cons] at hk ⊢
    exact hk
  · rw [hvals]
    refine ((hB'.map Prod.snd).append_right _).trans ?_
    rw [List.map_append, List.map_cons] at hv ⊢
    refine (List.perm_middle.append_right _).trans (List.Perm.cons val ?_)
    exact (perm_moved _ _ _ v).trans hv

/-- A key and its value have been freed. -/
theorem Accounts.freed {ht' : Dict K V} {B' : List (List (ℕ × K × V))} {X Y : List (K × V)}
    {k : K} {v : V} (ha : Accounts ht B keys vals)
    (hB : contents B = X ++ (k, v) :: Y) (hB' : contents B' = X ++ Y)
    (hkeys : ht'.freedKeys = k :: ht.freedKeys) (hvals : ht'.freedVals = v :: ht.freedVals) :
    Accounts ht' B' keys vals := by
  obtain ⟨hk, hv⟩ := ha
  rw [hB] at hk hv
  constructor
  · rw [hB', hkeys, List.map_append]
    rw [List.map_append, List.map_cons] at hk
    exact (perm_moved _ _ _ k).trans hk
  · rw [hB', hvals, List.map_append]
    rw [List.map_append, List.map_cons] at hv
    exact (perm_moved _ _ _ v).trans hv

/-- A call does what it is to do on an association list, and accounts for the keys and values. -/
def Serves (T : DictType K) (ht : Dict K V) (l : List (K × V)) (keys : List K) (vals : List V)
    (op : DictOp K V) : Prop :=
  ∃ ht' B', T.step ht op = .ok ((assocStep T.keyCompare l op).1, ht') ∧ Rep T ht' B' ∧
    (contents B').Perm (assocStep T.keyCompare l op).2 ∧
    Accounts ht' B' (op.takenKeys (assocStep T.keyCompare l op).1 ++ keys)
      (op.takenVals (assocStep T.keyCompare l op).1 ++ vals)

/-- What is found in the table is found in the list. -/
theorem Rep.find_eq (hT : T.Lawful) (h : Rep T ht B) (hl : (contents B).Perm l) (key : K) :
    Assoc.find T.keyCompare (contents B) key = Assoc.find T.keyCompare l key :=
  h.keyed.find_perm hT.symm hT.trans hl

theorem serves_add (hT : T.Lawful) (h : Rep T ht B) (hl : (contents B).Perm l)
    (hlt : l.length < 2 ^ 30) (ha : Accounts ht B keys vals) (key : K) (val : V) :
    Serves T ht l keys vals (.add key val) := by
  have hlt' : ht.used < 2 ^ 30 := by rwa [h.used_eq hl]
  have hfind := h.find_eq hT hl key
  cases hf : Assoc.find T.keyCompare l key with
  | none =>
    obtain ⟨ht', B', heq, hrep, hB', hkeys, hvals⟩ := dictAdd_fresh hT h hlt' (hfind.trans hf) val
    refine ⟨ht', B', ?_, hrep, ?_, ?_⟩ <;> simp only [assocStep, hf, Option.isSome_none]
    · rw [DictType.step, heq]
      rfl
    · exact hB'.trans (hl.cons _)
    · exact ha.taken hB' hkeys hvals
  | some v =>
    obtain ⟨ht', B', heq, hrep, hflat, hkeys, hvals⟩ :=
      dictAdd_held hT h hlt' (hfind.trans hf) val
    refine ⟨ht', B', ?_, hrep, ?_, ?_⟩ <;> simp only [assocStep, hf, Option.isSome_some]
    · rw [DictType.step, heq]
      rfl
    · exact (hflat.map Prod.snd).trans hl
    · exact ha.kept (hflat.map Prod.snd) hkeys hvals

theorem serves_replace (hT : T.Lawful) (h : Rep T ht B) (hl : (contents B).Perm l)
    (hlt : l.length < 2 ^ 30) (ha : Accounts ht B keys vals) (key : K) (val : V) :
    Serves T ht l keys vals (.replace key val) := by
  have hlt' : ht.used < 2 ^ 30 := by rwa [h.used_eq hl]
  have hfind := h.find_eq hT hl key
  cases hf : Assoc.find T.keyCompare l key with
  | none =>
    obtain ⟨ht', B', heq, hrep, hB', hkeys, hvals⟩ :=
      dictReplace_fresh hT h hlt' (hfind.trans hf) val
    refine ⟨ht', B', ?_, hrep, ?_, ?_⟩ <;> simp only [assocStep, hf, Option.isSome_none]
    · rw [DictType.step, heq]
      rfl
    · exact hB'.trans (hl.cons _)
    · exact ha.taken hB' hkeys hvals
  | some v =>
    -- the entry of the key gets the value
    have hf' := hfind.trans hf
    obtain ⟨ht', B', heq, hrep, hB', hkeys, hvals⟩ := dictReplace_held hT h hlt' hf' val
    obtain ⟨X, k, Y, hXY, hk⟩ := Assoc.exists_middle hf'
    have hset := Assoc.Keyed.set_middle (v := val) hT.symm hT.trans (hXY ▸ h.keyed) hk
    refine ⟨ht', B', ?_, hrep, ?_, ?_⟩ <;> simp only [assocStep, hf, Option.isSome_some]
    · rw [DictType.step, heq]
      rfl
    · exact hB'.trans (hl.map _)
    · rw [hXY, hset] at hB'
      exact ha.replaced hXY hB' hkeys hvals

theorem serves_delete (hT : T.Lawful) (h : Rep T ht B) (hl : (contents B).Perm l)
    (ha : Accounts ht B keys vals) (key : K) : Serves T ht l keys vals (.delete key) := by
  have hfind := h.find_eq hT hl key
  cases hf : Assoc.find T.keyCompare l key with
  | none =>
    have heq := dictDelete_missing h (hfind.trans hf)
    refine ⟨ht, B, ?_, h, ?_, ?_⟩ <;> simp only [assocStep, hf, Option.isSome_none]
    · rw [DictType.step, heq]
      rfl
    · exact hl
    · exact ha
  | some v =>
    obtain ⟨A', P, a, k, Y, C', ht', rfl, hk, heq, hrep, -, hkeys, hvals⟩ :=
      dictDelete_held hT h (hfind.trans hf)
    have hkeyed := h.keyed
    rw [contents_middle] at hkeyed
    have herase := hkeyed.erase_middle hT.symm hT.trans hk
    rw [← contents_middle, ← contents_without] at herase
    refine ⟨ht', _, ?_, hrep, ?_, ?_⟩ <;> simp only [assocStep, hf, Option.isSome_some]
    · rw [DictType.step, heq]
      rfl
    · rw [← herase]
      exact hl.filter _
    · exact ha.freed contents_middle contents_without hkeys hvals

theorem serves_find (hT : T.Lawful) (h : Rep T ht B) (hl : (contents B).Perm l)
    (ha : Accounts ht B keys vals) (key : K) : Serves T ht l keys vals (.find key) := by
  refine ⟨ht, B, ?_, h, hl, ha⟩
  rw [DictType.step, dictFind_eq hT h key, ok_bind, assocStep, ← h.find_eq hT hl key,
    find_contents]
  cases hf : B.flatten.find? fun x => T.keyCompare key x.2.1 with
  | none => rfl
  | some x =>
    obtain ⟨next, hc⟩ := h.cell_of_mem (List.mem_of_find?_eq_some hf)
    simp only [Option.map_some]
    rw [load_of_cell hc]
    rfl

theorem serves_expand (hT : T.Lawful) (h : Rep T ht B) (hl : (contents B).Perm l)
    (ha : Accounts ht B keys vals) {size : ℕ} (hsize : size ≤ 2 ^ 30) :
    Serves T ht l keys vals (.expand size) := by
  have hused := h.used_eq hl
  by_cases hlt : size < l.length
  · refine ⟨ht, B, ?_, h, hl, ha⟩
    rw [DictType.step, dictExpand, if_pos (by omega), assocStep, if_pos hlt]
    rfl
  · obtain ⟨ht', B', heq, hrep, hflat, -, hkeys, hvals⟩ :=
      dictExpand_rep hT h (show ht.used ≤ size by omega) hsize
    refine ⟨ht', B', ?_, hrep, (hflat.map Prod.snd).trans hl,
      ha.kept (hflat.map Prod.snd) hkeys hvals⟩
    rw [DictType.step, heq, assocStep, if_neg hlt]
    rfl

theorem serves_clear (h : Rep T ht B) (ha : Accounts ht B keys vals) :
    Serves T ht l keys vals .clear := by
  obtain ⟨ht', heq, hrep, hkeys, hvals⟩ := dictClear_rep h
  refine ⟨ht', [], ?_, hrep, List.Perm.refl _, ?_, ?_⟩
  · rw [DictType.step, heq]
    rfl
  · rw [hkeys]
    exact ((List.reverse_perm _).append_right _).trans ha.keys
  · rw [hvals]
    exact ((List.reverse_perm _).append_right _).trans ha.vals

/-- **A call of a dict** does what it is to do on an association list, and accounts for the keys
and values. -/
theorem DictType.step_rep (hT : T.Lawful) (h : Rep T ht B) (hl : (contents B).Perm l)
    (hfits : op.Fits l) (ha : Accounts ht B keys vals) : Serves T ht l keys vals op := by
  cases op with
  | add key val => exact serves_add hT h hl hfits ha key val
  | replace key val => exact serves_replace hT h hl hfits ha key val
  | delete key => exact serves_delete hT h hl ha key
  | find key => exact serves_find hT h hl ha key
  | expand size => exact serves_expand hT h hl ha hfits
  | clear => exact serves_clear h ha

/-! ### Runs -/

/-- The keys that a dict takes with calls, by what they return. -/
def takenKeys (ops : List (DictOp K V)) (answers : List (DictAnswer V)) : List K :=
  (List.zipWith DictOp.takenKeys ops answers).flatten

/-- The values that a dict takes with calls, by what they return. -/
def takenVals (ops : List (DictOp K V)) (answers : List (DictAnswer V)) : List V :=
  (List.zipWith DictOp.takenVals ops answers).flatten

/-- Calls one after another, from any dict. -/
theorem DictType.run_rep (hT : T.Lawful) {ops : List (DictOp K V)} (h : Rep T ht B)
    (hl : (contents B).Perm l) (hfits : FitAll T.keyCompare l ops) (ha : Accounts ht B keys vals) :
    ∃ ht' B', T.run ht ops = .ok ((assocRun T.keyCompare l ops).1, ht') ∧ Rep T ht' B' ∧
      (contents B').Perm (assocRun T.keyCompare l ops).2 ∧
      Accounts ht' B' (takenKeys ops (assocRun T.keyCompare l ops).1 ++ keys)
        (takenVals ops (assocRun T.keyCompare l ops).1 ++ vals) := by
  induction ops generalizing ht B l keys vals with
  | nil => exact ⟨ht, B, rfl, h, hl, ha⟩
  | cons op ops ih =>
    obtain ⟨hop, hops⟩ := hfits
    obtain ⟨ht₁, B₁, heq₁, hrep₁, hl₁, ha₁⟩ := T.step_rep hT h hl hop ha
    obtain ⟨ht', B', heq, hrep, hl', hkeys, hvals⟩ := ih hrep₁ hl₁ hops ha₁
    refine ⟨ht', B', ?_, hrep, hl', hkeys.trans ?_, hvals.trans ?_⟩
    · rw [DictType.run, heq₁, ok_bind]
      simp only
      rw [heq]
      rfl
    · rw [← List.append_assoc]
      exact List.perm_append_comm.append_right keys
    · rw [← List.append_assoc]
      exact List.perm_append_comm.append_right vals

theorem rep_dictCreate : Rep T (dictCreate : Dict K V) [] := rep_empty (fun _ => rfl) [] []

theorem accounts_dictCreate : Accounts (dictCreate : Dict K V) [] [] [] :=
  ⟨List.Perm.refl _, List.Perm.refl _⟩

/-- **A hash table is an association list**: calls in any order give the answers that they give on
a list, and leave the keys and values that they leave in the list. -/
theorem DictType.run_answers (hT : T.Lawful) (ops : List (DictOp K V))
    (hfits : FitAll T.keyCompare [] ops) :
    ∃ ht B, T.run dictCreate ops = .ok ((assocRun T.keyCompare [] ops).1, ht) ∧ Rep T ht B ∧
      (contents B).Perm (assocRun T.keyCompare [] ops).2 := by
  obtain ⟨ht, B, heq, hrep, hl, -⟩ :=
    T.run_rep hT rep_dictCreate (List.Perm.refl []) hfits accounts_dictCreate
  exact ⟨ht, B, heq, hrep, hl⟩

/-- **What a dict has taken it frees once**: when it is released after any calls, no entry of it is
allocated, and its destructors have been called with the keys and values that it has taken. -/
theorem DictType.run_freed (hT : T.Lawful) (ops : List (DictOp K V))
    (hfits : FitAll T.keyCompare [] ops) :
    ∃ answers ht ht', T.run dictCreate ops = .ok (answers, ht) ∧ dictClear ht = .ok ht' ∧
      (∀ a, cell ht'.cells a = none) ∧ ht'.freedKeys.Perm (takenKeys ops answers) ∧
        ht'.freedVals.Perm (takenVals ops answers) := by
  obtain ⟨ht, B, heq, hrep, -, hkeys, hvals⟩ :=
    T.run_rep hT rep_dictCreate (List.Perm.refl []) hfits accounts_dictCreate
  obtain ⟨ht', hclear, hrep', hfreedKeys, hfreedVals⟩ := dictClear_rep hrep
  rw [List.append_nil] at hkeys hvals
  refine ⟨_, ht, ht', heq, hclear, fun a => ?_, ?_, ?_⟩
  · cases hc : cell ht'.cells a with
    | none => rfl
    | some c => exact absurd (hrep'.only a c hc) List.not_mem_nil
  · rw [hfreedKeys]
    exact ((List.reverse_perm _).append_right _).trans hkeys
  · rw [hfreedVals]
    exact ((List.reverse_perm _).append_right _).trans hvals

end

/-! ### The names of channels -/

/-- An `sds` string whose length is an `int`. -/
structure SdsName where
  /-- The bytes. -/
  str : List UInt8
  /-- Their number is an `int`. -/
  short : str.length < 2 ^ 31

/-- `callbackKeyCompare`. -/
def callbackKeyCompare (key1 key2 : SdsName) : Bool :=
  let l1 := toInt key1.str.length
  let l2 := toInt key2.str.length
  if l1 ≠ l2 then false else key1.str.take l1.toNat == key2.str.take l1.toNat

/-- `callbackDict`: a dict by the names of channels. -/
def callbackDict : DictType SdsName where
  hashFunction key := dictGenHashFunction key.str
  keyCompare := callbackKeyCompare

/-- Names compare equal if they are the same. -/
theorem callbackDict_keyCompare (key1 key2 : SdsName) :
    callbackDict.keyCompare key1 key2 = decide (key1.str = key2.str) := by
  have hint : ∀ s : SdsName, toInt s.str.length = s.str.length := fun s =>
    Int.bmod_eq_of_le (by omega) (by have := s.short; omega)
  simp only [callbackDict, callbackKeyCompare, hint, Int.toNat_natCast, List.take_length]
  by_cases h : key1.str = key2.str
  · simp [h]
  · rw [decide_eq_false h]
    split_ifs with hlen
    · rfl
    · have hlen' : key1.str.length = key2.str.length := by omega
      rw [hlen', List.take_length]
      simpa using h

theorem callbackDict_lawful : callbackDict.Lawful where
  symm k k' := by
    rw [callbackDict_keyCompare, callbackDict_keyCompare]
    exact decide_eq_decide.mpr eq_comm
  trans k k' k'' h h' := by
    rw [callbackDict_keyCompare, decide_eq_true_eq] at h h' ⊢
    exact h.trans h'
  hash k k' h := by
    rw [callbackDict_keyCompare, decide_eq_true_eq] at h
    exact congrArg dictGenHashFunction h

/-- A name of one letter. -/
def letter (c : UInt8) : SdsName := ⟨[c], by simp⟩

/-- A channel is entered, entered again, found and removed. -/
def channelCalls : List (DictOp SdsName ℕ) :=
  [.replace (letter 97) 1, .replace (letter 97) 2, .add (letter 98) 3, .find (letter 97),
    .delete (letter 97), .find (letter 97)]

theorem fitAll_channelCalls : FitAll callbackDict.keyCompare [] channelCalls := by
  refine ⟨?_, ?_, ?_, trivial, trivial, trivial, trivial⟩ <;> change _ < 2 ^ 30 <;> decide

theorem DictType.run_answers_channel :
    ∃ ht B, callbackDict.run dictCreate channelCalls =
        .ok ([.added true, .added false, .status .ok, .value (some 2), .status .ok, .value none],
          ht) ∧
      Rep callbackDict ht B ∧ (contents B).Perm [(letter 98, 3)] :=
  callbackDict.run_answers callbackDict_lawful channelCalls fitAll_channelCalls

theorem DictType.run_freed_channel :
    ∃ answers ht ht', callbackDict.run dictCreate channelCalls = .ok (answers, ht) ∧
      dictClear ht = .ok ht' ∧ (∀ a, cell ht'.cells a = none) ∧
        ht'.freedKeys.Perm (takenKeys channelCalls answers) ∧
          ht'.freedVals.Perm (takenVals channelCalls answers) :=
  callbackDict.run_freed callbackDict_lawful channelCalls fitAll_channelCalls

end Hiredis

end BackendStudy
