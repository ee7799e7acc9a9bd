import BackendStudy.Lib.Slots
import Mathlib.Data.Int.Notation
import Mathlib.Data.List.Basic
import Mathlib.Logic.Function.Basic

/-!
# Commands of `RedisConn.cpp` and the command formatter of hiredis

`RedisConn` builds the commands with any number of arguments by appending the arguments to a
string, and hands the string to `redisCommand` as a format. `redisvFormatCommand` cuts a format
into the arguments of a command: at spaces, and with `%` directives that take what they print
from the variable arguments, of which `RedisConn` passes none.

Strings are lists of characters. A format is read up to its terminator, so it is the list in
front of it (`BackendStudy.Redis.cStr`), and the terminator is the end of the list. A directive
moves the reading position by more than one character; the loop counts how many of them it has
still to pass (`BackendStudy.Redis.formatLoop`), and passing the terminator is a fault.
Allocations succeed. What `vsnprintf` writes for a number is a parameter.
-/

namespace BackendStudy

namespace Redis

open Slots

/-- `std::string`, `sds`. -/
abbrev Str := List Char

/-- `c_str()`, as it is read. -/
def cStr (s : Str) : Str := s.takeWhile (· ≠ '\x00')

/-- What can go wrong in a run of the source. -/
inductive Fault
  /-- A variable argument is taken that has not been passed, or not with this type. -/
  | noArgument
  /-- Something is read outside of an array or a string. -/
  | outOfRange
  deriving DecidableEq

/-! ### `redisvFormatCommand` -/

/-- The types of the numbers that directives take. -/
inductive NumType
  /-- `int`. -/
  | int
  /-- `double`. -/
  | double
  /-- `long long`. -/
  | longLong
  /-- `long`. -/
  | long
  deriving DecidableEq

/-- A variable argument, with the numbers of a type `ν`. -/
inductive VaArg (ν : Type)
  /-- A pointer to characters. -/
  | text (s : Str)
  /-- A `size_t`. -/
  | size (n : ℕ)
  /-- A number. -/
  | number (ty : NumType) (v : ν)

/-- The arguments of the command so far: those that are complete, the current one, and whether
the current one has been begun. -/
structure Scan where
  /-- `curargv`. -/
  curargv : List Str
  /-- `curarg`. -/
  curarg : Str
  /-- `touched`. -/
  touched : Bool

/-- A space ends an argument that has been begun. -/
def Scan.space (s : Scan) : Scan :=
  if s.touched then ⟨s.curargv ++ [s.curarg], [], false⟩ else s

/-- Something is appended to the current argument, which begins it. -/
def Scan.cat (s : Scan) (x : Str) : Scan := ⟨s.curargv, s.curarg ++ x, true⟩

/-- The arguments at the end of the format. -/
def Scan.argv (s : Scan) : List Str := if s.touched then s.curargv ++ [s.curarg] else s.curargv

section

variable {ν : Type}

/-- `va_arg(ap, char*)`. -/
def vaText : List (VaArg ν) → Except Fault (Str × List (VaArg ν))
  | .text s :: ap => .ok (s, ap)
  | _ => .error .noArgument

/-- `va_arg(ap, size_t)`. -/
def vaSize : List (VaArg ν) → Except Fault (ℕ × List (VaArg ν))
  | .size n :: ap => .ok (n, ap)
  | _ => .error .noArgument

/-- `va_arg` of a number. -/
def vaNumber (ty : NumType) : List (VaArg ν) → Except Fault (ν × List (VaArg ν))
  | .number ty' v :: ap => if ty' = ty then .ok (v, ap) else .error .noArgument
  | _ => .error .noArgument

/-- The position behind the flags, the field width and the precision. -/
def skipFlags (p : Str) : Str :=
  let p := p.dropWhile (['#', '0', '-', '+', ' '].contains ·)
  let p := p.dropWhile Char.isDigit
  match p with
  | '.' :: p => p.dropWhile Char.isDigit
  | p => p

/-- `strchr(intfmts, c) != NULL`, for a character that is not the terminator. -/
def intfmts (c : Char) : Bool := ['d', 'i', 'o', 'u', 'x', 'X'].contains c

/-- An integer conversion behind a size. -/
def sized (ty : NumType) : Str → Option (NumType × Str)
  | [] => none
  | c :: p => if intfmts c then some (ty, c :: p) else none

/-- The conversion behind the flags: its type, and the position of its last character. The first
comparison also finds the terminator. -/
def conversion : Str → Option (NumType × Str)
  | [] => some (.int, [])
  | 'h' :: 'h' :: p => sized .int p
  | 'h' :: p => sized .int p
  | 'l' :: 'l' :: p => sized .longLong p
  | 'l' :: p => sized .long p
  | c :: p =>
    if intfmts c then some (.int, c :: p)
    else if ['e', 'E', 'f', 'F', 'g', 'G', 'a', 'A'].contains c then some (.double, c :: p)
    else none

/-- A directive, read behind its `%`: the arguments so far, the variable arguments left, and how
many characters behind the `%` are passed. A format error gives nothing. -/
def directive (vprintf : Str → ν → Str) (c : Str) (s : Scan) (ap : List (VaArg ν)) :
    Except Fault (Option (Scan × List (VaArg ν) × ℕ)) :=
  match c with
  | 's' :: _ => do
    let (arg, ap) ← vaText ap
    .ok (some (s.cat (cStr arg), ap, 1))
  | 'b' :: _ => do
    let (arg, ap) ← vaText ap
    let (size, ap) ← vaSize ap
    if size ≤ arg.length then .ok (some (s.cat (arg.take size), ap, 1)) else .error .outOfRange
  | '%' :: _ => .ok (some (s.cat ['%'], ap, 1))
  | c =>
    match conversion (skipFlags c) with
    | none => .ok none
    | some (ty, p) => do
      let (v, ap) ← vaNumber ty ap
      let l := ('%' :: c).length - p.length + 1
      -- a directive that is too long for the buffer prints nothing, and only two characters of
      -- it are passed
      if l < 14 then .ok (some (s.cat (vprintf (('%' :: c).take l) v), ap, l - 1))
      else .ok (some (s.cat [], ap, 1))

/-- The loop of `redisvFormatCommand` over the format, with the number of characters that are
still to be passed: the arguments of the command, or nothing for a format error. -/
def formatLoop (vprintf : Str → ν → Str) :
    ℕ → Str → Scan → List (VaArg ν) → Except Fault (Option (List Str))
  | 0, [], s, _ => .ok (some s.argv)
  | _ + 1, [], _, _ => .error .outOfRange
  | skip + 1, _ :: c, s, ap => formatLoop vprintf skip c s ap
  | 0, x :: c, s, ap =>
    if x ≠ '%' ∨ c = [] then
      if x = ' ' then formatLoop vprintf 0 c s.space ap
      else formatLoop vprintf 0 c (s.cat [x]) ap
    else do
      match ← directive vprintf c s ap with
      | none => .ok none
      | some (s, ap, skip) => formatLoop vprintf skip c s ap

/-- The argument vector of `redisvFormatCommand`. -/
def formatArgv (vprintf : Str → ν → Str) (format : Str) (ap : List (VaArg ν)) :
    Except Fault (Option (List Str)) :=
  formatLoop vprintf 0 format ⟨[], [], false⟩ ap

/-- The command at protocol level. -/
def protocol (argv : List Str) : Str :=
  ('*' :: Nat.toDigits 10 argv.length ++ ['\r', '\n']) ++
    argv.flatMap fun arg => '$' :: Nat.toDigits 10 arg.length ++ ['\r', '\n'] ++ arg ++ ['\r', '\n']

/-- `redisvFormatCommand`: the text of the command, or nothing for a format error. -/
def redisvFormatCommand (vprintf : Str → ν → Str) (format : Str) (ap : List (VaArg ν)) :
    Except Fault (Option Str) := do
  let argv ← formatArgv vprintf format ap
  .ok (argv.map protocol)

end

/-! ### `RedisConn` -/

/-- The types of replies. -/
inductive ReplyType
  /-- `REDIS_REPLY_STRING`. -/
  | string
  /-- `REDIS_REPLY_ARRAY`. -/
  | array
  /-- `REDIS_REPLY_INTEGER`. -/
  | integer
  /-- `REDIS_REPLY_NIL`. -/
  | nil
  /-- `REDIS_REPLY_STATUS`. -/
  | status
  /-- `REDIS_REPLY_ERROR`. -/
  | error
  deriving DecidableEq

/-- `redisReply`. -/
structure Reply where
  /-- The type. -/
  type : ReplyType
  /-- The number of an integer reply. -/
  integer : ℤ
  /-- The text of a string, a status or an error. -/
  str : Str
  /-- The elements of an array. -/
  element : List Reply

/-- `map<string, string>`, as an argument: its pairs in the order of the keys. -/
structure KeyValues where
  /-- The pairs. -/
  entries : List (Str × Str)
  /-- They are in order. -/
  sorted : entries.Pairwise fun a b => a.1 < b.1

/-- `getReplyStatus`. -/
def getReplyStatus : Option Reply → Bool
  | none => false
  | some reply => reply.type = .status && reply.str.take 2 = ['O', 'K']

/-- `getReplyInt`. -/
def getReplyInt : Option Reply → ℤ
  | none => 0
  | some reply => if reply.type = .integer then reply.integer else 0

/-- `getReplyString`, of an element of an array. -/
def getReplyString (reply : Reply) : Str :=
  if reply.type = .string then reply.str else []

/-- The loop of `getReplyMap` over the elements of an array, from the index `i` on. -/
def fillValues (keys : List Str) :
    ℕ → List Reply → (Str → Option Str) → Except Fault (Str → Option Str)
  | _, [], values => .ok values
  | i, reply :: element, values => do
    let key ← get .outOfRange keys i
    fillValues keys (i + 1) element (Function.update values key (some (getReplyString reply)))

/-- `getReplyMap`, with the keys that were asked for. -/
def getReplyMap (reply : Option Reply) (keys : List Str) (values : Str → Option Str) :
    Except Fault (Bool × (Str → Option Str)) :=
  match reply with
  | none => .ok (false, values)
  | some reply =>
    if reply.type = .array then do
      let values ← fillValues keys 0 reply.element values
      .ok (true, values)
    else .ok (false, values)

/-- A command that is built from its arguments. -/
def buildCommand (name : Str) (args : List Str) : Str :=
  args.foldl (fun mcmd arg => mcmd ++ [' '] ++ arg) name

/-- The keys and values of a map, in turn. -/
def KeyValues.args (kvs : KeyValues) : List Str := kvs.entries.flatMap fun kv => [kv.1, kv.2]

/-- The command of `mset`. -/
def msetCommand (kvs : KeyValues) : Str := buildCommand ['M', 'S', 'E', 'T'] kvs.args

/-- The command of `mget`. -/
def mgetCommand (keys : List Str) : Str := buildCommand ['M', 'G', 'E', 'T'] keys

/-- The command of `del`. -/
def delCommand (keys : List Str) : Str := buildCommand ['D', 'E', 'L'] keys

section

variable {ν : Type} (vprintf : Str → ν → Str) (server : List Str → Option Reply)

/-- The arguments of a command that is passed as a format alone. -/
def sentArgv (mcmd : Str) : Except Fault (Option (List Str)) := formatArgv vprintf (cStr mcmd) []

/-- `redisCommand`, of a format alone: the reply of the server, or none after a format error. -/
def redisCommand (mcmd : Str) : Except Fault (Option Reply) := do
  let argv ← sentArgv vprintf mcmd
  .ok (argv.bind server)

/-- `mset`, on a connection that there may not be. -/
def mset (context : Bool) (kvs : KeyValues) : Except Fault Bool :=
  if !context || kvs.entries.isEmpty then .ok false
  else do
    let reply ← redisCommand vprintf server (msetCommand kvs)
    .ok (getReplyStatus reply)

/-- `mget`. -/
def mget (context : Bool) (keys : List Str) (values : Str → Option Str) :
    Except Fault (Bool × (Str → Option Str)) :=
  if !context || keys.isEmpty then .ok (false, values)
  else do
    let reply ← redisCommand vprintf server (mgetCommand keys)
    getReplyMap reply keys fun _ => none

/-- `del`, of several keys. -/
def del (context : Bool) (keys : List Str) : Except Fault ℤ :=
  if !context then .ok 0
  else do
    let reply ← redisCommand vprintf server (delCommand keys)
    .ok (getReplyInt reply)

end

end Redis

end BackendStudy
