import BackendStudy.Redis.Model
import Mathlib.Algebra.Order.Ring.Int

/-!
# The reply reader of hiredis

`read.c` parses the replies of a Redis server. What has arrived is appended to a buffer
(`BackendStudy.Hiredis.redisReaderFeed`), and `redisReaderGetReply` reads as much of one reply as
there is (`BackendStudy.Hiredis.redisReaderGetReply`). An array is read item by item: a stack of
nine tasks holds the arrays that are not complete and the item that is being read
(`BackendStudy.Hiredis.processItem`). The objects are those of `hiredis.c`: they are allocated as
they are read, and each is entered into the array that it is an element of.

Objects are numbered in the order in which they are allocated, which allocation does not fail, and
a number is not given out again (`BackendStudy.Hiredis.Heap`). The buffer is what it contains: the
length of it is its length, and what is spare in it is left out. To reach outside of the stack or
of an array, to follow a pointer to no object, and an assertion that does not hold are faults.
-/

namespace BackendStudy

namespace Hiredis

open Slots Redis

/-- What a program must not do. -/
inductive Fault
  /-- To reach outside of an array. -/
  | outOfRange
  /-- To follow a pointer to no object. -/
  | noObject
  /-- An assertion does not hold. -/
  | assertion
  /-- A loop or a recursion has not ended. -/
  | endless
  deriving DecidableEq

/-- `REDIS_OK` and `REDIS_ERR`. -/
inductive Status
  /-- `REDIS_OK`. -/
  | ok
  /-- `REDIS_ERR`. -/
  | err
  deriving DecidableEq

/-- The kinds of errors. -/
inductive ErrType
  /-- `REDIS_ERR_IO`. -/
  | io
  /-- `REDIS_ERR_OTHER`. -/
  | other
  /-- `REDIS_ERR_EOF`. -/
  | eof
  /-- `REDIS_ERR_PROTOCOL`. -/
  | protocol
  /-- `REDIS_ERR_OOM`. -/
  | oom
  deriving DecidableEq

/-- `assert`. -/
def check (p : Prop) [Decidable p] : Except Fault Unit := if p then .ok () else .error .assertion

/-- What a `size_t` is as an `int`. -/
def toInt (n : ℤ) : ℤ := n.bmod (2 ^ 32)

/-- `sdsrange`: what is from one position to another, both counted from the end if negative. -/
def sdsrange (s : Str) (start stop : ℤ) : Str :=
  if s.length = 0 then s
  else
    let len : ℤ := s.length
    let start := if start < 0 then max (toInt (len + start)) 0 else start
    let stop := if stop < 0 then max (toInt (len + stop)) 0 else stop
    let newlen := if start > stop then 0 else stop - start + 1
    if newlen = 0 then []
    else if start ≥ toInt len then []
    else if stop ≥ toInt len then
      let stop := toInt (len - 1)
      (s.drop start.toNat).take (if start > stop then 0 else stop - start + 1).toNat
    else (s.drop start.toNat).take newlen.toNat

/-! ### Objects -/

/-- A `redisReply`, with the pointers to its elements. -/
structure ReplyObj where
  /-- `type`. -/
  type : ReplyType
  /-- `integer`. -/
  integer : ℤ
  /-- `str`. -/
  str : Str
  /-- `element`. -/
  element : List (Option ℕ)
  deriving DecidableEq

/-- The memory of the objects. -/
structure Heap where
  /-- The objects that are there. -/
  obj : ℕ → Option ReplyObj
  /-- The next object to be allocated. -/
  next : ℕ

namespace Heap

/-- The object behind a pointer. -/
def deref (h : Heap) : Option ℕ → Except Fault ReplyObj
  | none => .error .noObject
  | some p => (h.obj p).elim (.error .noObject) .ok

/-- `createReplyObject`, and what is then written to the object. -/
def alloc (h : Heap) (o : ReplyObj) : ℕ × Heap :=
  (h.next, ⟨Function.update h.obj h.next (some o), h.next + 1⟩)

/-- `parent->element[idx] = r`, of an array. -/
def setElement (h : Heap) (parent : Option ℕ) (idx : ℤ) (p : ℕ) : Except Fault Heap := do
  let o ← h.deref parent
  check (o.type = .array)
  if 0 ≤ idx then
    let element ← put .outOfRange o.element idx.toNat (some p)
    match parent with
    | none => .error .noObject
    | some q => .ok { h with obj := Function.update h.obj q (some { o with element := element }) }
  else .error .outOfRange

/-- `freeReplyObject`, to a depth. -/
def freeReplyObject : ℕ → Heap → Option ℕ → Except Fault Heap
  | _, h, none => .ok h
  | 0, _, some _ => .error .endless
  | depth + 1, h, some p => do
    let o ← h.deref (some p)
    let h ← (if o.type = .array then o.element else []).foldlM (freeReplyObject depth) h
    let _ ← h.deref (some p)
    .ok { h with obj := Function.update h.obj p none }

end Heap

/-! ### The reader -/

/-- `redisReadTask`. -/
structure ReadTask where
  /-- `type`, where `-1` is none. -/
  type : Option ReplyType
  /-- `elements`. -/
  elements : ℤ
  /-- `idx`. -/
  idx : ℤ
  /-- `obj`. -/
  obj : Option ℕ
  /-- `parent`, as its place on the stack. -/
  parent : Option ℕ
  deriving DecidableEq

/-- `redisReader`, with the memory of the objects. -/
structure Reader where
  /-- `err` and `errstr`. -/
  err : Option (ErrType × Str)
  /-- `buf`. -/
  buf : Str
  /-- `pos`. -/
  pos : ℕ
  /-- `rstack`. -/
  rstack : List ReadTask
  /-- `ridx`. -/
  ridx : ℤ
  /-- `reply`. -/
  reply : Option ℕ
  /-- The objects. -/
  heap : Heap

/-- `redisReaderCreate`. -/
def redisReaderCreate (heap : Heap) : Reader where
  err := none
  buf := []
  pos := 0
  rstack := List.replicate 9 ⟨none, 0, 0, none, none⟩
  ridx := -1
  reply := none
  heap := heap

namespace Reader

/-- `freeObject`, of `reply`, which is never deeper than there are objects. -/
def freeReply (r : Reader) : Except Fault Reader := do
  let heap ← r.heap.freeReplyObject r.heap.next r.reply
  .ok { r with heap := heap, reply := none }

/-- `__redisReaderSetError`. -/
def setError (r : Reader) (type : ErrType) (str : Str) : Except Fault Reader := do
  let r ← r.freeReply
  .ok { r with buf := [], pos := 0, ridx := -1, err := some (type, str.take 127) }

/-- The task at a place on the stack. -/
def task (r : Reader) (i : ℤ) : Except Fault ReadTask :=
  if 0 ≤ i then get .outOfRange r.rstack i.toNat else .error .outOfRange

/-- A task is written to its place on the stack. -/
def setTask (r : Reader) (i : ℤ) (t : ReadTask) : Except Fault Reader := do
  let rstack ← if 0 ≤ i then put .outOfRange r.rstack i.toNat t else .error .outOfRange
  .ok { r with rstack := rstack }

/-- What has not been read. -/
def unread (r : Reader) : Str := r.buf.drop r.pos

end Reader

/-- `isprint`. -/
def isprint (c : Char) : Bool := 32 ≤ c.toNat && c.toNat ≤ 126

/-- `%02x`, of a byte. -/
def hex2 (c : Char) : Str := [Nat.digitChar (c.toNat % 256 / 16), Nat.digitChar (c.toNat % 16)]

/-- `chrtos`. -/
def chrtos (byte : Char) : Str :=
  let quoted : Str :=
    if byte = '\\' ∨ byte = '"' then ['\\', byte]
    else if byte = '\n' then ['\\', 'n']
    else if byte = '\r' then ['\\', 'r']
    else if byte = '\t' then ['\\', 't']
    else if byte = '\x07' then ['\\', 'a']
    else if byte = '\x08' then ['\\', 'b']
    else if isprint byte then [byte]
    else ['\\', 'x'] ++ hex2 byte
  '"' :: quoted ++ ['"']

/-- The text of `__redisReaderSetErrorProtocolByte`. -/
def protocolByteError (byte : Char) : Str :=
  "Protocol error, got ".toList ++ chrtos byte ++ " as reply type byte".toList

/-- `readBytes`: what is from the position on. -/
def readBytes (r : Reader) (bytes : ℕ) : Option (Str × Reader) :=
  if r.buf.length - r.pos ≥ bytes then some (r.unread, { r with pos := r.pos + bytes }) else none

/-- The loop of `seekNewline`, with the number of positions that are left. -/
def seekLoop : ℕ → Str → Option ℕ
  | 0, _ => none
  | left + 1, s =>
    if ['\r', '\n'].isPrefixOf s then some 0
    else match s with
      | [] => none
      | _ :: s => (seekLoop left s).map (· + 1)

/-- `seekNewline`: the position of the first `"\r\n"`. The last position to look at is an `int`. -/
def seekNewline (s : Str) : Option ℕ := seekLoop (toInt (s.length - 1)).toNat s

/-- The loop of `string2ll` over the digits: the value, and what is behind them. -/
def digitLoop : Str → ℕ → Option (ℕ × Str)
  | [], v => some (v, [])
  | c :: p, v =>
    if '0' ≤ c ∧ c ≤ '9' then
      let d := c.toNat - '0'.toNat
      if v > (2 ^ 64 - 1) / 10 then none
      else if v * 10 > 2 ^ 64 - 1 - d then none
      else digitLoop p (v * 10 + d)
    else some (v, c :: p)

/-- The part of `string2ll` behind the sign. -/
def magnitude : Str → Option ℕ
  | [] => none
  | c :: p =>
    if '1' ≤ c ∧ c ≤ '9' then
      match digitLoop p (c.toNat - '0'.toNat) with
      | some (v, []) => some v
      | _ => none
    else none

/-- `string2ll`. -/
def string2ll (s : Str) : Option ℤ :=
  match s with
  | [] => none
  | ['0'] => some 0
  | '-' :: p =>
    match magnitude p with
    | some v => if v > 2 ^ 63 then none else some (-v)
    | none => none
  | p =>
    match magnitude p with
    | some v => if v > 2 ^ 63 - 1 then none else some v
    | none => none

/-- `readLine`: the line. -/
def readLine (r : Reader) : Option (Str × Reader) :=
  (seekNewline r.unread).map fun len => (r.unread.take len, { r with pos := r.pos + len + 2 })

/-- The loop of `moveToNextTask`, from a place on the stack. -/
def moveLoop : ℕ → List ReadTask → Except Fault (ℤ × List ReadTask)
  | 0, rstack => .ok (-1, rstack)
  | i + 1, rstack => do
    let cur ← get .outOfRange rstack (i + 1)
    let prv ← get .outOfRange rstack i
    check (prv.type = some .array)
    if cur.idx = prv.elements - 1 then moveLoop i rstack
    else
      check (cur.idx < prv.elements)
      let rstack ← put .outOfRange rstack (i + 1)
        { cur with type := none, elements := -1, idx := cur.idx + 1 }
      .ok (i + 1, rstack)

/-- `moveToNextTask`. -/
def moveToNextTask (r : Reader) : Except Fault Reader :=
  if 0 ≤ r.ridx then do
    let (ridx, rstack) ← moveLoop r.ridx.toNat r.rstack
    .ok { r with ridx := ridx, rstack := rstack }
  else .ok r

/-- What all functions that create an object do: it is entered into the array that it is an
element of. -/
def createObject (r : Reader) (task : ReadTask) (o : ReplyObj) : Except Fault (ℕ × Reader) := do
  let (p, heap) := r.heap.alloc o
  match task.parent with
  | none => .ok (p, { r with heap := heap })
  | some i => do
    let parent ← get .outOfRange r.rstack i
    let heap ← heap.setElement parent.obj task.idx p
    .ok (p, { r with heap := heap })

/-- `createStringObject`. -/
def createStringObject (r : Reader) (task : ReadTask) (str : Str) :
    Except Fault (ℕ × Reader) :=
  match task.type with
  | some .error => createObject r task ⟨.error, 0, str, []⟩
  | some .status => createObject r task ⟨.status, 0, str, []⟩
  | some .string => createObject r task ⟨.string, 0, str, []⟩
  | _ => .error .assertion

/-- `createArrayObject`. -/
def createArrayObject (r : Reader) (task : ReadTask) (elements : ℕ) :
    Except Fault (ℕ × Reader) :=
  createObject r task ⟨.array, 0, [], List.replicate elements none⟩

/-- `createIntegerObject`. -/
def createIntegerObject (r : Reader) (task : ReadTask) (value : ℤ) :
    Except Fault (ℕ × Reader) :=
  createObject r task ⟨.integer, value, [], []⟩

/-- `createNilObject`. -/
def createNilObject (r : Reader) (task : ReadTask) : Except Fault (ℕ × Reader) :=
  createObject r task ⟨.nil, 0, [], []⟩

/-- An item has been read: it is the reply if it is the root, and the next task is on. -/
def itemDone (r : Reader) (p : ℕ) : Except Fault (Status × Reader) := do
  let r ← moveToNextTask (if r.ridx = 0 then { r with reply := some p } else r)
  .ok (.ok, r)

/-- An item cannot be read. -/
def itemError (r : Reader) (str : Str) : Except Fault (Status × Reader) := do
  let r ← r.setError .protocol str
  .ok (.err, r)

/-- `processLineItem`. -/
def processLineItem (r : Reader) : Except Fault (Status × Reader) := do
  let cur ← r.task r.ridx
  match readLine r with
  | none => .ok (.err, r)
  | some (p, r) =>
    if cur.type = some .integer then
      match string2ll p with
      | none => itemError r "Bad integer value".toList
      | some v => do
        let (obj, r) ← createIntegerObject r cur v
        itemDone r obj
    else do
      let (obj, r) ← createStringObject r cur p
      itemDone r obj

/-- `processBulkItem`. The length is at most `LLONG_MAX`, and `bytelen` does not overflow; but the
signed `len + 2` does for the two largest lengths. It is taken for the number that `bytelen` gets
then, for which no buffer is large enough. -/
def processBulkItem (r : Reader) : Except Fault (Status × Reader) := do
  let cur ← r.task r.ridx
  match seekNewline r.unread with
  | none => .ok (.err, r)
  | some s =>
    match string2ll (r.unread.take s) with
    | none => itemError r "Bad bulk string length".toList
    | some len =>
      if len < -1 then itemError r "Bulk string length out of range".toList
      else if len = -1 then do
        let (obj, r) ← createNilObject r cur
        itemDone { r with pos := r.pos + (s + 2) } obj
      else
        let bytelen := s + 2 + (len.toNat + 2)
        if r.pos + bytelen ≤ r.buf.length then do
          let (obj, r) ← createStringObject r cur ((r.unread.drop (s + 2)).take len.toNat)
          itemDone { r with pos := r.pos + bytelen } obj
        else .ok (.err, r)

/-- The part of `processMultiBulkItem` that begins to read the elements. -/
def pushTask (r : Reader) (cur : ReadTask) (elements : ℤ) (obj : ℕ) : Except Fault Reader := do
  let r ← r.setTask r.ridx { cur with elements := elements, obj := some obj }
  let i := r.ridx
  let r ← r.setTask (i + 1) ⟨none, -1, 0, none, some i.toNat⟩
  .ok { r with ridx := i + 1 }

/-- `processMultiBulkItem`. -/
def processMultiBulkItem (r : Reader) : Except Fault (Status × Reader) := do
  let cur ← r.task r.ridx
  if r.ridx = 8 then
    itemError r "No support for nested multi bulk replies with depth > 7".toList
  else
    match readLine r with
    | none => .ok (.err, r)
    | some (p, r) =>
      match string2ll p with
      | none => itemError r "Bad multi-bulk length".toList
      | some elements =>
        let root := r.ridx = 0
        if elements < -1 ∨ elements > 2 ^ 31 - 1 then
          itemError r "Multi-bulk length out of range".toList
        else do
          let (obj, r) ←
            if elements = -1 then do
              let (obj, r) ← createNilObject r cur
              let r ← moveToNextTask r
              .ok (obj, r)
            else do
              let (obj, r) ← createArrayObject r cur elements.toNat
              let r ← if elements > 0 then pushTask r cur elements obj else moveToNextTask r
              .ok (obj, r)
          .ok (.ok, if root then { r with reply := some obj } else r)

/-- The type of an item by its first byte. -/
def itemType (c : Char) : Option ReplyType :=
  if c = '-' then some .error
  else if c = '+' then some .status
  else if c = ':' then some .integer
  else if c = '$' then some .string
  else if c = '*' then some .array
  else none

/-- The part of `processItem` that reads the type of the item, if it has not been read. -/
def readType (r : Reader) : Except Fault (Status × Reader) := do
  let cur ← r.task r.ridx
  if cur.type.isNone then
    match readBytes r 1 with
    | none => .ok (.err, r)
    | some (p, r) =>
      match p with
      | [] => .error .outOfRange
      | c :: _ =>
        match itemType c with
        | none => itemError r (protocolByteError c)
        | some type => do
          let r ← r.setTask r.ridx { cur with type := some type }
          .ok (.ok, r)
  else .ok (.ok, r)

/-- `processItem`. -/
def processItem (r : Reader) : Except Fault (Status × Reader) := do
  match ← readType r with
  | (.err, r) => .ok (.err, r)
  | (.ok, r) => do
    let cur ← r.task r.ridx
    match cur.type with
    | some .error | some .status | some .integer => processLineItem r
    | some .string => processBulkItem r
    | some .array => processMultiBulkItem r
    | _ => .error .assertion

/-- The loop of `redisReaderGetReply`. -/
def processItems : ℕ → Reader → Except Fault Reader
  | 0, _ => .error .endless
  | fuel + 1, r =>
    if 0 ≤ r.ridx then do
      match ← processItem r with
      | (.ok, r) => processItems fuel r
      | (.err, r) => .ok r
    else .ok r

/-- `redisReaderFeed`. -/
def redisReaderFeed (r : Reader) (buf : Str) : Status × Reader :=
  if r.err.isSome then (.err, r) else (.ok, { r with buf := r.buf ++ buf })

/-- `redisReaderGetReply`, with the reply. Each item that is read takes something of the buffer. -/
def redisReaderGetReply (r : Reader) : Except Fault (Status × Option ℕ × Reader) :=
  if r.err.isSome then .ok (.err, none, r)
  else if r.buf.length = 0 then .ok (.ok, none, r)
  else do
    let r ←
      if r.ridx = -1 then do
        let r ← r.setTask 0 ⟨none, -1, -1, none, none⟩
        .ok { r with ridx := 0 }
      else .ok r
    let r ← processItems (r.buf.length - r.pos + 1) r
    if r.err.isSome then .ok (.err, none, r)
    else
      let r :=
        if r.pos ≥ 1024 then { r with buf := sdsrange r.buf (toInt r.pos) (-1), pos := 0 } else r
      if r.ridx = -1 then .ok (.ok, r.reply, { r with reply := none })
      else .ok (.ok, none, r)

/-- `redisReaderFree`: the memory of the objects. -/
def redisReaderFree (r : Reader) : Except Fault Heap := do
  let r ← r.freeReply
  .ok r.heap

end Hiredis

end BackendStudy
