import BackendStudy.Lib.Wire
import Mathlib.Algebra.Order.Ring.Int

/-!
# The protocol stack of `udp_icmp_arp_stack.c`

`main` takes one frame after the other from the network card and looks at the protocol in its
Ethernet header. `udp_process` prints the payload of a datagram, `icmp_process` answers an echo
request, and `arp_process` answers a request for the address of this host. The headers are
packed structures that are laid over the bytes of the frame, so a field is a position here, and
an access outside of the frame is a fault.

The lengths are computed in the types of the source: an `int` is an integer, `_u16` is `UInt16`,
and `size_t` is `UInt64`. The host has the lower byte of a word first, as its order of the bit
fields in `struct ip_header` says. What is only printed from the headers is left out, and so are
the return values, which nothing reads; allocations succeed.
-/

namespace BackendStudy

namespace Stack

open Wire

/-- What can go wrong in a run of the source. -/
inductive Fault
  /-- A byte outside of the received frame is read or written. -/
  | outOfRange
  /-- A sum does not fit into an `int`. -/
  | overflow
  deriving DecidableEq

/-- `PROTO_IP`. -/
def protoIp : ℕ := 0x0800

/-- `PROTO_ARP`. -/
def protoArp : ℕ := 0x0806

/-- `IPPROTO_UDP`. -/
def ipprotoUdp : ℕ := 17

/-- `IPPROTO_ICMP`. -/
def ipprotoIcmp : ℕ := 1

/-- `sizeof(struct udp_packet)`, where its `payload` begins. -/
def udpPacketSize : ℕ := 42

/-- `sizeof(struct icmp_ping_packet)`. -/
def icmpPingPacketSize : ℕ := 42

/-- `sizeof(struct arp_packet)`. -/
def arpPacketSize : ℕ := 42

/-! ### Datagrams -/

/-- `length - sizeof(struct udp_header)`, an index of type `size_t`. -/
def payloadIndex (length : ℕ) : UInt64 := UInt64.ofInt (length - 8)

/-- `udp_process`: the frame after it, and the payload that is printed. -/
def udpProcess (stream : List UInt8) : Except Fault (List UInt8 × List UInt8) := do
  -- `udp.length`
  let length ← be16 .outOfRange stream 38
  -- the sum of the address and the index is one of 64 bits, too
  let stream ← store .outOfRange stream ((udpPacketSize + (payloadIndex length).toNat) % 2 ^ 64) 0
  let payload ← text .outOfRange stream udpPacketSize
  .ok (stream, payload)

/-! ### Echo requests -/

/-- Addition of an `int`. -/
def addInt (sum x : ℕ) : Except Fault ℕ :=
  if sum + x < 2 ^ 31 then .ok (sum + x) else .error .overflow

/-- The loop of `in_cksum` over the words that are left, and the odd byte behind them. -/
def sumWords : List UInt8 → ℕ → Except Fault ℕ
  | lo :: hi :: w, sum => do
    let sum ← addInt sum (lo.toNat + 256 * hi.toNat)
    sumWords w sum
  | [lo], sum => addInt sum lo.toNat
  | [], sum => .ok sum

/-- `in_cksum`, of the `len` bytes at `addr`. -/
def inCksum (bytes : List UInt8) : Except Fault UInt16 := do
  let sum ← sumWords bytes 0
  let sum := (sum >>> 16) + (sum &&& 0xffff)
  let sum := sum + (sum >>> 16)
  .ok (~~~UInt16.ofNat sum)

/-- `icmp_len`. -/
def icmpLen (totalLen headerLen : ℕ) : UInt16 := UInt16.ofInt (totalLen - headerLen * 4)

/-- `icmp_datalen`. The subtraction is one of `size_t`, of which `_u16` keeps the lower half
words. -/
def icmpDatalen (icmpLen : UInt16) : UInt16 := (UInt64.ofInt (icmpLen.toNat - 8)).toUInt16

/-- `header_len` of a byte with `version`. -/
def ipHeaderLen (b : ℕ) : ℕ := b &&& 0x0F

/-- `icmp_process`: the frames that are injected. -/
def icmpProcess (stream : List UInt8) : Except Fault (List (List UInt8)) := do
  -- `ip.total_len` and `ip.header_len`
  let totalLen ← be16 .outOfRange stream 16
  let version ← byte .outOfRange stream 14
  let len := icmpLen totalLen (ipHeaderLen version)
  let datalen := icmpDatalen len
  -- `icmp.type`
  let type ← byte .outOfRange stream 34
  if type = 8 then do
    let ack ← slice .outOfRange stream 0 (icmpPingPacketSize + datalen.toNat)
    -- `icmp.code`, `icmp.type` and `icmp.checkSum`
    let ack := patch ack 35 [0]
    let ack := patch ack 34 [0]
    let ack := patch ack 36 [0, 0]
    -- `ip.dst_ip` and `ip.src_ip`
    let srcIp ← slice .outOfRange stream 26 4
    let ack := patch ack 30 srcIp
    let dstIp ← slice .outOfRange stream 30 4
    let ack := patch ack 26 dstIp
    -- `eth.dst_mac` and `eth.src_mac`
    let srcMac ← slice .outOfRange stream 6 6
    let ack := patch ack 0 srcMac
    let dstMac ← slice .outOfRange stream 0 6
    let ack := patch ack 6 dstMac
    let sum ← inCksum ((ack.drop 34).take (8 + datalen.toNat))
    .ok [patch ack 36 [sum.toUInt8, (sum >>> 8).toUInt8]]
  else .ok []

/-- `ip_process`: the frames that are injected. -/
def ipProcess (stream : List UInt8) : Except Fault (List (List UInt8)) := do
  -- `ip.proto`
  let proto ← byte .outOfRange stream 23
  if proto = ipprotoUdp then do
    let _ ← udpProcess stream
    .ok []
  else if proto = ipprotoIcmp then icmpProcess stream
  else .ok []

/-! ### Address requests -/

/-- The value of a hexadecimal digit. -/
def hexDigit? (c : Char) : Option UInt8 :=
  if 'a' ≤ c ∧ c ≤ 'f' then some (UInt8.ofNat (c.toNat - 'a'.toNat + 10))
  else if 'A' ≤ c ∧ c ≤ 'F' then some (UInt8.ofNat (c.toNat - 'A'.toNat + 10))
  else if '0' ≤ c ∧ c ≤ '9' then some (UInt8.ofNat (c.toNat - '0'.toNat))
  else none

/-- The loop of `str2mac`: the return value and `mac`. The arguments are `idx`, `val` and the
string from `p` on. -/
def str2macFrom (mac : List UInt8) (idx : ℕ) (val : UInt8) : List Char → ℤ × List UInt8
  | [] => if idx < 6 then (0, mac.set idx val) else (-1, mac)
  | c :: p =>
    if idx < 6 then
      if c ≠ ':' then
        match hexDigit? c with
        | some d => str2macFrom mac idx ((val <<< 4) + d) p
        | none => (-1, mac)
      else str2macFrom (mac.set idx val) (idx + 1) 0 p
    else (-1, mac)

/-- `str2mac`: the return value and `mac`. -/
def str2mac (mac : List UInt8) (macstr : List Char) : ℤ × List UInt8 := str2macFrom mac 0 0 macstr

/-- `inet_addr(SELF_IP)`. -/
def localip : List UInt8 := [192, 168, 131, 129]

/-- `SELF_MAC`. -/
def selfMac : List Char := "00:0c:29:ef:e2:3b".toList

/-- `arp_process`: the frames that are injected. -/
def arpProcess (stream : List UInt8) : Except Fault (List (List UInt8)) := do
  -- `arp.op`
  let op ← be16 .outOfRange stream 20
  let srcMac ← slice .outOfRange stream 22 6
  let srcIp ← slice .outOfRange stream 28 4
  let dstIp ← slice .outOfRange stream 38 4
  if dstIp ≠ localip then .ok []
  else do
    -- `localmac` is written as a whole
    let localmac := (str2mac [0, 0, 0, 0, 0, 0] selfMac).2
    if op = 1 then do
      let ack ← slice .outOfRange stream 0 arpPacketSize
      let ack := patch ack 32 srcMac
      let ack := patch ack 38 srcIp
      let ack := patch ack 0 srcMac
      let ack := patch ack 22 localmac
      let ack := patch ack 28 localip
      let ack := patch ack 6 localmac
      .ok [patch ack 20 [0, 2]]
    else .ok []

/-- The body of the loop of `main`, on the frame that `nm_nextpkt` gives: the frames that are
injected. -/
def mainStep (stream : List UInt8) : Except Fault (List (List UInt8)) := do
  -- `eh->proto`
  let proto ← be16 .outOfRange stream 12
  if proto = protoIp then ipProcess stream
  else if proto = protoArp then arpProcess stream
  else .ok []

end Stack

end BackendStudy
