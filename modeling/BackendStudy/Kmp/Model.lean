import BackendStudy.Lib.Wire
import Mathlib.Algebra.Order.Ring.Int

/-!
# The search for a pattern of `kmp.c`

`make_next` fills an array with the lengths to fall back to, and `kmp` reads a text from left to
right with it. The file has a second `make_next` with two nested loops, which is disabled
(`BackendStudy.Kmp.makeNextDisabled`).

A string is its characters in front of the terminating zero (`BackendStudy.Kmp.CStr`), and what is
read behind that zero, or outside of the array, is a fault. The array of `kmp` has twenty
entries; a pattern may need another number of them, so the number is a parameter of
`BackendStudy.Kmp.kmpOf`. The `while` loops take an amount of fuel.

Positions and lengths have the type `int`. A length that is none comes out as another number, which
may be negative (`BackendStudy.Kmp.CStr.patLen`), and to count a position beyond the greatest `int`
is a fault (`BackendStudy.Kmp.incr`).
-/

namespace BackendStudy

namespace Kmp

open Slots Wire

/-- What can go wrong in a run of the source. -/
inductive Fault
  /-- A character or an entry outside of its array is read or written. -/
  | outOfRange
  /-- An `int` overflows. -/
  | overflow
  /-- The fuel is not enough. -/
  | outOfFuel
  deriving DecidableEq

/-- **A string**: its characters, without the zero that ends it. -/
structure CStr where
  /-- The characters. -/
  chars : List UInt8
  nul : 0 ∉ chars

namespace CStr

/-- The bytes in memory. -/
def bytes (s : CStr) : List UInt8 := s.chars ++ [0]

/-- `strlen`. -/
def strlen (s : CStr) : ℕ := s.chars.length

/-- `int patLen = strlen(pattern)`. -/
def patLen (s : CStr) : ℤ := (s.strlen : ℤ).bmod (2 ^ 32)

/-- `s[i]`. -/
def char (s : CStr) (i : ℕ) : Except Fault UInt8 := get .outOfRange s.bytes i

end CStr

/-- `INT_MAX`. -/
def intMax : ℕ := 2147483647

/-- `i++`, of an `int`. -/
def incr (i : ℕ) : Except Fault ℕ := if i < intMax then .ok (i + 1) else .error .overflow

/-! ### The array to fall back with -/

/-- The loop of `make_next` that falls back: `prefixTail` after it. -/
def fallBack (pattern : CStr) (next : List ℕ) (subfixTail : ℕ) : ℕ → ℕ → Except Fault ℕ
  | 0, _ => .error .outOfFuel
  | fuel + 1, prefixTail =>
    if prefixTail > 0 then do
      let c ← pattern.char subfixTail
      let d ← pattern.char prefixTail
      if c ≠ d then do
        let prefixTail ← get .outOfRange next (prefixTail - 1)
        fallBack pattern next subfixTail fuel prefixTail
      else .ok prefixTail
    else .ok prefixTail

/-- The body of the loop of `make_next`, on `prefixTail` and `next`. -/
def makeNextBody (fuel : ℕ) (pattern : CStr) (subfixTail : ℕ) :
    ℕ × List ℕ → Except Fault (ℕ × List ℕ)
  | (prefixTail, next) => do
    let prefixTail ← fallBack pattern next subfixTail fuel prefixTail
    let c ← pattern.char subfixTail
    let d ← pattern.char prefixTail
    let prefixTail ← (if c = d then incr prefixTail else .ok prefixTail)
    let next ← put .outOfRange next subfixTail prefixTail
    .ok (prefixTail, next)

/-- `make_next`: the array after it. -/
def makeNext (fuel : ℕ) (pattern : CStr) (next : List ℕ) : Except Fault (List ℕ) := do
  let next ← put .outOfRange next 0 0
  let (_, next) ← forUp (makeNextBody fuel pattern) 1 (pattern.patLen - 1).toNat (0, next)
  .ok next

/-- The inner loop of the disabled `make_next`, with `subPatLen` going down. -/
def longestMatch (pattern : CStr) (tailIdx : ℕ) : ℕ → List ℕ → Except Fault (List ℕ)
  | 0, next => .ok next
  | subPatLen + 1, next => do
    -- `memcmp`
    let front ← slice .outOfRange pattern.bytes 0 (subPatLen + 1)
    let rear ← slice .outOfRange pattern.bytes (tailIdx - subPatLen) (subPatLen + 1)
    if front = rear then put .outOfRange next tailIdx (subPatLen + 1)
    else longestMatch pattern tailIdx subPatLen next

/-- The disabled `make_next`. -/
def makeNextDisabled (pattern : CStr) (next : List ℕ) : Except Fault (List ℕ) :=
  -- the bound of the loop, `patLen - 1`, must be an `int` as well
  if pattern.patLen = -intMax - 1 then .error .overflow
  else
    forUp (fun tailIdx next => do
      let next ← put .outOfRange next tailIdx 0
      longestMatch pattern tailIdx tailIdx next) 0 (pattern.patLen - 1).toNat next

/-! ### The search -/

/-- The loop of `kmp`. -/
def kmpLoop (text pattern : CStr) (next : List ℕ) : ℕ → ℕ → ℕ → Except Fault ℤ
  | 0, _, _ => .error .outOfFuel
  | fuel + 1, t, p => do
    let c ← text.char t
    if c = 0 then .ok (-1)
    else do
      let d ← pattern.char p
      if c ≠ d then
        if p = 0 then do
          let t ← incr t
          kmpLoop text pattern next fuel t p
        else do
          let p ← get .outOfRange next (p - 1)
          kmpLoop text pattern next fuel t p
      else do
        let p ← incr p
        let t ← incr t
        if p = pattern.patLen then .ok (t - pattern.patLen)
        else kmpLoop text pattern next fuel t p

/-- `kmp`, with an array of `size` entries. -/
def kmpOf (size fuel : ℕ) (text pattern : CStr) : Except Fault ℤ := do
  let next ← makeNext fuel pattern (List.replicate size 0)
  kmpLoop text pattern next fuel 0 0

/-- `kmp`. -/
def kmp (fuel : ℕ) (text pattern : CStr) : Except Fault ℤ := kmpOf 20 fuel text pattern

end Kmp

end BackendStudy
