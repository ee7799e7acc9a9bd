import BackendStudy.Hiredis.Reader
import BackendStudy.Lib.Arena

/-!
# The hash tables of hiredis

`dict.c` is a hash table with chaining: a slot of the table points to a list of entries, and an
entry is in the slot that the hash of its key gives under a mask
(`BackendStudy.Hiredis.dictKeyIndex`). A new entry goes to the head of its list, and a table that
is full is first exchanged for one of twice the size, into which the entries are moved one by one
(`BackendStudy.Hiredis.dictExpand`). An iterator goes through the slots in order and along their
lists (`BackendStudy.Hiredis.dictNext`).

The entries are cells of an arena. To allocate does not fail. The sizes are of 64 bits, a hash is
of 32, and the index of a slot is an `int`. A loop along a list has as much fuel as there are
cells, so to run out of it is to go in circles. The copies that a dict makes of keys and values are
the keys and values themselves; what its destructors have been called with is recorded.
-/

namespace BackendStudy

namespace Hiredis

open Slots Arena

/-! ### Types -/

/-- `dictEntry`. -/
structure DictEntry (K V : Type) where
  /-- `key`. -/
  key : K
  /-- `val`. -/
  val : V
  /-- `next`. -/
  next : Option ℕ

/-- `dictType`. -/
structure DictType (K : Type) where
  /-- `hashFunction`. -/
  hashFunction : K → UInt32
  /-- `keyCompare`. -/
  keyCompare : K → K → Bool

/-- `dict`, with its entries. -/
structure Dict (K V : Type) where
  /-- The entries. -/
  cells : List (Option (DictEntry K V))
  /-- `table`, empty for `NULL`. -/
  table : List (Option ℕ)
  /-- `size`. -/
  size : ℕ
  /-- `sizemask`. -/
  sizemask : ℕ
  /-- `used`. -/
  used : ℕ
  /-- What `keyDestructor` has been called with. -/
  freedKeys : List K
  /-- What `valDestructor` has been called with. -/
  freedVals : List V

/-- `dictIterator`, of a table that is passed along. -/
structure DictIterator where
  /-- `index`. -/
  index : ℤ
  /-- `entry`. -/
  entry : Option ℕ
  /-- `nextEntry`. -/
  nextEntry : Option ℕ

/-- `DICT_HT_INITIAL_SIZE`. -/
def dictHtInitialSize : ℕ := 4

/-- `n + 1`, of an `unsigned long`. -/
def incr (n : ℕ) : ℕ := (n + 1) % 2 ^ 64

/-- `n - 1`, of an `unsigned long`. -/
def decr (n : ℕ) : ℕ := (n + (2 ^ 64 - 1)) % 2 ^ 64

/-- `table[index]`. -/
def slotAt (table : List (Option ℕ)) : ℤ → Except Fault (Option ℕ)
  | .ofNat i => get .outOfRange table i
  | .negSucc _ => .error .outOfRange

/-- `table[index] = p`. -/
def setSlotAt (table : List (Option ℕ)) : ℤ → Option ℕ → Except Fault (List (Option ℕ))
  | .ofNat i, p => put .outOfRange table i p
  | .negSucc _, _ => .error .outOfRange

@[simp] theorem slotAt_natCast (table : List (Option ℕ)) (i : ℕ) :
    slotAt table i = get .outOfRange table i := rfl

@[simp] theorem setSlotAt_natCast (table : List (Option ℕ)) (i : ℕ) (p : Option ℕ) :
    setSlotAt table i p = put .outOfRange table i p := rfl

/-- `dictGenHashFunction`. -/
def dictGenHashFunction (buf : List UInt8) : UInt32 :=
  buf.foldl (fun hash c => ((hash <<< 5) + hash) + c.toUInt32) 5381

section

variable {K V : Type}

/-- `_dictReset`. -/
def Dict.reset (ht : Dict K V) : Dict K V :=
  { ht with table := [], size := 0, sizemask := 0, used := 0 }

/-- `dictCreate`. -/
def dictCreate : Dict K V := ⟨[], [], 0, 0, 0, [], []⟩

/-- The loop of `_dictNextPower`. It doubles `i` at most as often as an `unsigned long` has
bits. -/
def nextPowerLoop (size : ℕ) : ℕ → ℕ → ℕ
  | 0, i => i
  | fuel + 1, i => if i ≥ size then i else nextPowerLoop size fuel (i * 2)

/-- `_dictNextPower`. -/
def dictNextPower (size : ℕ) : ℕ :=
  if size ≥ 2 ^ 63 - 1 then 2 ^ 63 - 1 else nextPowerLoop size 64 dictHtInitialSize

variable (T : DictType K)

/-- `dictHashKey(ht, key) & sizemask`. -/
def DictType.slot (key : K) (sizemask : ℕ) : ℕ := (T.hashFunction key).toNat &&& sizemask

/-! ### Expansion -/

/-- The inner loop of `dictExpand`: the entries from `he` on go to the heads of their lists in the
new table. -/
def moveEntries (sizemask : ℕ) : ℕ → Dict K V → List (Option ℕ) → Option ℕ →
    Except Fault (Dict K V × List (Option ℕ))
  | _, ht, n, none => .ok (ht, n)
  | 0, _, _, some _ => .error .endless
  | fuel + 1, ht, n, some he => do
    let entry ← load .noObject ht.cells (some he)
    let h := T.slot entry.key sizemask
    let head ← get .outOfRange n h
    let cells ← store .noObject ht.cells he { entry with next := head }
    let n ← put .outOfRange n h (some he)
    moveEntries sizemask fuel { ht with cells := cells, used := decr ht.used } n entry.next

/-- The outer loop of `dictExpand`, from the slot `i` on. -/
def moveSlots (sizemask : ℕ) : ℕ → ℕ → Dict K V → List (Option ℕ) →
    Except Fault (Dict K V × List (Option ℕ))
  | 0, _, ht, n => .ok (ht, n)
  | slots + 1, i, ht, n =>
    if ht.used > 0 then do
      let he ← get .outOfRange ht.table i
      let (ht, n) ← moveEntries T sizemask ht.cells.length ht n he
      moveSlots sizemask slots (i + 1) ht n
    else .ok (ht, n)

/-- `dictExpand`. -/
def dictExpand (ht : Dict K V) (size : ℕ) : Except Fault (Status × Dict K V) := do
  let realsize := dictNextPower size
  if ht.used > size then return (.err, ht)
  let (old, n) ← moveSlots T (realsize - 1) ht.size 0 ht (List.replicate realsize none)
  check (old.used = 0)
  return (.ok, { old with table := n, size := realsize, sizemask := realsize - 1, used := ht.used })

/-- `_dictExpandIfNeeded`. -/
def dictExpandIfNeeded (ht : Dict K V) : Except Fault (Status × Dict K V) :=
  if ht.size = 0 then dictExpand T ht dictHtInitialSize
  else if ht.used = ht.size then dictExpand T ht (ht.size * 2 % 2 ^ 64)
  else .ok (.ok, ht)

/-! ### Search and update -/

/-- The loop along a list to the first entry with a key, of `_dictKeyIndex` and `dictFind`. -/
def seekKey (key : K) (cells : List (Option (DictEntry K V))) : ℕ → Option ℕ →
    Except Fault (Option ℕ)
  | _, none => .ok none
  | 0, some _ => .error .endless
  | fuel + 1, some he => do
    let entry ← load .noObject cells (some he)
    if T.keyCompare key entry.key then .ok (some he) else seekKey key cells fuel entry.next

/-- `_dictKeyIndex`. -/
def dictKeyIndex (ht : Dict K V) (key : K) : Except Fault (ℤ × Dict K V) := do
  let (status, ht) ← dictExpandIfNeeded T ht
  if status = .err then return (-1, ht)
  let h := T.slot key ht.sizemask
  let he ← get .outOfRange ht.table h
  match ← seekKey T key ht.cells ht.cells.length he with
  | some _ => return (-1, ht)
  | none => return (toInt h, ht)

/-- `dictAdd`. -/
def dictAdd (ht : Dict K V) (key : K) (val : V) : Except Fault (Status × Dict K V) := do
  let (index, ht) ← dictKeyIndex T ht key
  if index = -1 then return (.err, ht)
  let head ← slotAt ht.table index
  let (entry, cells) := alloc ht.cells ⟨key, val, head⟩
  let table ← setSlotAt ht.table index (some entry)
  return (.ok, { ht with cells := cells, table := table, used := incr ht.used })

/-- `dictFind`. -/
def dictFind (ht : Dict K V) (key : K) : Except Fault (Option ℕ) := do
  if ht.size = 0 then return none
  let he ← get .outOfRange ht.table (T.slot key ht.sizemask)
  seekKey T key ht.cells ht.cells.length he

/-- `dictReplace`: whether the key has been added. -/
def dictReplace (ht : Dict K V) (key : K) (val : V) : Except Fault (Bool × Dict K V) := do
  let (status, ht) ← dictAdd T ht key val
  if status = .ok then return (true, ht)
  match ← dictFind T ht key with
  | none => .error .noObject
  | some entry =>
    let auxentry ← load .noObject ht.cells (some entry)
    let cells ← store .noObject ht.cells entry { auxentry with val := val }
    return (false, { ht with cells := cells, freedVals := auxentry.val :: ht.freedVals })

/-- An entry is freed, with its key and its value. -/
def freeEntry (ht : Dict K V) (he : ℕ) : Except Fault (Dict K V) := do
  let entry ← load .noObject ht.cells (some he)
  let cells ← free .noObject ht.cells he
  return { ht with
    cells := cells
    freedKeys := entry.key :: ht.freedKeys
    freedVals := entry.val :: ht.freedVals
    used := decr ht.used }

/-- The loop of `dictDelete`, along the list of the slot `h`. -/
def deleteLoop (key : K) (h : ℕ) (ht : Dict K V) : ℕ → Option ℕ → Option ℕ →
    Except Fault (Status × Dict K V)
  | _, _, none => .ok (.err, ht)
  | 0, _, some _ => .error .endless
  | fuel + 1, prevde, some de => do
    let entry ← load .noObject ht.cells (some de)
    if T.keyCompare key entry.key then
      match prevde with
      | some prev =>
        let prevEntry ← load .noObject ht.cells (some prev)
        let cells ← store .noObject ht.cells prev { prevEntry with next := entry.next }
        let ht ← freeEntry { ht with cells := cells } de
        return (.ok, ht)
      | none =>
        let table ← put .outOfRange ht.table h entry.next
        let ht ← freeEntry { ht with table := table } de
        return (.ok, ht)
    else deleteLoop key h ht fuel (some de) entry.next

/-- `dictDelete`. -/
def dictDelete (ht : Dict K V) (key : K) : Except Fault (Status × Dict K V) := do
  if ht.size = 0 then return (.err, ht)
  let h := T.slot key ht.sizemask
  let de ← get .outOfRange ht.table h
  deleteLoop T key h ht ht.cells.length none de

end

/-! ### Clearing and iteration -/

section

variable {K V : Type}

/-- The inner loop of `_dictClear`. -/
def freeEntries : ℕ → Dict K V → Option ℕ → Except Fault (Dict K V)
  | _, ht, none => .ok ht
  | 0, _, some _ => .error .endless
  | fuel + 1, ht, some he => do
    let entry ← load .noObject ht.cells (some he)
    let ht ← freeEntry ht he
    freeEntries fuel ht entry.next

/-- The outer loop of `_dictClear`, from the slot `i` on. -/
def freeSlots : ℕ → ℕ → Dict K V → Except Fault (Dict K V)
  | 0, _, ht => .ok ht
  | slots + 1, i, ht =>
    if ht.used > 0 then do
      let he ← get .outOfRange ht.table i
      let ht ← freeEntries ht.cells.length ht he
      freeSlots slots (i + 1) ht
    else .ok ht

/-- `_dictClear`. -/
def dictClear (ht : Dict K V) : Except Fault (Dict K V) := do
  let ht ← freeSlots ht.size 0 ht
  return ht.reset

/-- `dictGetIterator`. -/
def dictGetIterator : DictIterator := ⟨-1, none, none⟩

/-- The loop of `dictNext`. -/
def nextLoop (ht : Dict K V) : ℕ → DictIterator → Except Fault (Option ℕ × DictIterator)
  | 0, _ => .error .endless
  | fuel + 1, iter => do
    let index := if iter.entry = none then toInt (iter.index + 1) else iter.index
    if iter.entry = none ∧ index ≥ toInt ht.size then return (none, { iter with index := index })
    let entry ← if iter.entry = none then slotAt ht.table index else .ok iter.nextEntry
    match entry with
    | some he =>
      let e ← load .noObject ht.cells (some he)
      return (some he, ⟨index, some he, e.next⟩)
    | none => nextLoop ht fuel ⟨index, none, iter.nextEntry⟩

/-- `dictNext`. It goes to a slot at most once, and leaves a list at most once. -/
def dictNext (ht : Dict K V) (iter : DictIterator) : Except Fault (Option ℕ × DictIterator) :=
  nextLoop ht (ht.size + 2) iter

end

end Hiredis

end BackendStudy
