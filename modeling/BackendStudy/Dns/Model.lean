import BackendStudy.Lib.Fuel
import BackendStudy.Lib.Wire

/-!
# The response parser of `async_dns_client.c`

`dns_parse_response` walks through a response with one pointer: over the questions, label by
label, and over the answers, for each of which `dns_parse_name` decodes the name of the owner
at the pointer. The pointer is a position in the receive buffer here, and reading outside of
the buffer is a fault.

The names are decoded into buffers of 128 bytes that have been filled with zeros, at the
position `*len`. The part of such a buffer in front of this position is the value here; it ends
in a zero as long as it has at most 127 bytes, and writing more is a fault
(`BackendStudy.Dns.writeName`). `dns_parse_name` calls itself to follow a pointer and then
returns, so the call takes the place of the loop. Neither need end, so they run on fuel.
Allocations succeed; what is only printed is left out.
-/

namespace BackendStudy

namespace Dns

open Wire

/-- What can go wrong in a run of the source. -/
inductive Fault
  /-- A byte is read outside of the receive buffer. -/
  | outOfRange
  /-- A name buffer has no room for the name and its terminator. -/
  | overflow
  /-- The fuel is not enough. -/
  | outOfFuel
  deriving DecidableEq

/-- `DNS_HOST`. -/
def dnsHost : ℕ := 0x01

/-- `DNS_CNAME`. -/
def dnsCname : ℕ := 0x05

/-- `struct dns_item`. -/
structure DnsItem where
  /-- The name. -/
  domain : List UInt8
  /-- The address, in dotted form. -/
  ip : List Char
  deriving DecidableEq

/-- The entries that have been filled in, and their count. -/
structure Found where
  /-- `cnt`. -/
  cnt : ℕ
  /-- The first `cnt` entries of `list`. -/
  list : List DnsItem
  deriving DecidableEq

/-- `is_pointer`. -/
def isPointer (b : ℕ) : Bool := b &&& 0xC0 == 0xC0

/-- Appending to a name buffer. -/
def writeName (out x : List UInt8) : Except Fault (List UInt8) :=
  if (out ++ x).length ≤ 127 then .ok (out ++ x) else .error .overflow

/-- `dns_parse_name`, on a name buffer that holds `out`. -/
def dnsParseName (chunk : List UInt8) : ℕ → ℕ → List UInt8 → Except Fault (List UInt8)
  | 0, _, _ => .error .outOfFuel
  | fuel + 1, ptr, out => do
    let flag ← byte .outOfRange chunk ptr
    if flag = 0 then .ok out
    else if isPointer flag then do
      let n ← byte .outOfRange chunk (ptr + 1)
      -- the recursive call, with which the loop ends
      dnsParseName chunk fuel n out
    else do
      let label ← slice .outOfRange chunk (ptr + 1) flag
      let out ← writeName out label
      let next ← byte .outOfRange chunk (ptr + 1 + flag)
      let out ← if next ≠ 0 then writeName out [46] else .ok out
      dnsParseName chunk fuel (ptr + 1 + flag) out

/-- The loop over the labels of a question, behind its last one. -/
def skipLabels (chunk : List UInt8) : ℕ → ℕ → Except Fault ℕ
  | 0, _ => .error .outOfFuel
  | fuel + 1, ptr => do
    let flag ← byte .outOfRange chunk ptr
    if flag = 0 then .ok (ptr + (flag + 1)) else skipLabels chunk fuel (ptr + (flag + 1))

/-- The loop over the questions. -/
def skipQuestions (fuel : ℕ) (chunk : List UInt8) : ℕ → ℕ → Except Fault ℕ
  | 0, ptr => .ok ptr
  | querys + 1, ptr => do
    let ptr ← skipLabels chunk fuel ptr
    skipQuestions fuel chunk querys (ptr + 4)

/-- `strlen` and `memcpy`: a name up to its first zero. -/
def cString (out : List UInt8) : List UInt8 := out.takeWhile (· ≠ 0)

/-- `inet_ntop`, of an address of four bytes. -/
def inetNtop (netip : List UInt8) : List Char :=
  List.intercalate ['.'] (netip.map fun b => Nat.toDigits 10 b.toNat)

/-- The body of the loop over the answers: the pointer behind the answer, and the entries. -/
def parseAnswer (fuel : ℕ) (chunk : List UInt8) (ptr : ℕ) (found : Found) :
    Except Fault (ℕ × Found) := do
  let aname ← dnsParseName chunk fuel ptr []
  let ptr := ptr + 2
  let type ← be16 .outOfRange chunk ptr
  let ptr := ptr + 4
  -- the time to live, which is printed
  let _ ← be16 .outOfRange chunk ptr
  let ptr := ptr + 4
  let datalen ← be16 .outOfRange chunk ptr
  let ptr := ptr + 2
  if type = dnsCname then do
    let _ ← dnsParseName chunk fuel ptr []
    .ok (ptr + datalen, found)
  else if type = dnsHost then
    if datalen = 4 then do
      let netip ← slice .outOfRange chunk ptr datalen
      let item := ⟨cString aname, inetNtop netip⟩
      .ok (ptr + datalen, ⟨found.cnt + 1, found.list ++ [item]⟩)
    else .ok (ptr + datalen, found)
  else .ok (ptr, found)

/-- The loop over the answers. -/
def parseAnswers (fuel : ℕ) (chunk : List UInt8) :
    ℕ → ℕ → Found → Except Fault Found
  | 0, _, found => .ok found
  | answers + 1, ptr, found => do
    let (ptr, found) ← parseAnswer fuel chunk ptr found
    parseAnswers fuel chunk answers ptr found

/-- `dns_parse_response`: the count that it returns, and the entries of `*domains`. -/
def dnsParseResponse (fuel : ℕ) (buffer : List UInt8) : Except Fault Found := do
  let querys ← be16 .outOfRange buffer 4
  let answers ← be16 .outOfRange buffer 6
  let ptr ← skipQuestions fuel buffer querys 12
  parseAnswers fuel buffer answers ptr ⟨0, []⟩

end Dns

end BackendStudy
