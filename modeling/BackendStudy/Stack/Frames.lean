import BackendStudy.Stack.Model

/-!
# Handling a frame within its length

A frame is received with the fixed headers of its protocol (`BackendStudy.Stack.Frame`). The
fields in these headers say further lengths: how long a datagram is, how long the header in front
of an echo request is, and how long both are together. `udp_process` and `icmp_process` compute
with these fields and never with the length of the frame.

So a frame is handled within its length (`BackendStudy.Stack.Frame.Handled`) if and only if its
fields say so: a datagram is followed by one more byte, which gets the terminator, and an echo
request ends in the frame (`BackendStudy.Stack.Frame.handled_iff`). A datagram that fills its
frame is not handled so (`BackendStudy.Stack.not_handled_sample`).
-/

namespace BackendStudy

namespace Stack

open Wire

/-! ### Frames -/

/-- The frame has a datagram. -/
def IsUdp (a : List UInt8) : Prop := Word a 12 protoIp ∧ Byte a 23 ipprotoUdp

/-- The frame has a control message. -/
def IsIcmp (a : List UInt8) : Prop := Word a 12 protoIp ∧ Byte a 23 ipprotoIcmp

/-- **A received frame**: it has at least the fixed headers of its protocol. -/
structure Frame where
  /-- The bytes. -/
  bytes : List UInt8
  eth : 14 ≤ bytes.length
  arp : Word bytes 12 protoArp → arpPacketSize ≤ bytes.length
  ip : Word bytes 12 protoIp → 34 ≤ bytes.length
  udp : IsUdp bytes → udpPacketSize ≤ bytes.length
  icmp : IsIcmp bytes → 38 ≤ bytes.length

/-- **A frame is handled within its length**: no byte outside of it is read or written, and the
lengths that are computed are the differences that they stand for. -/
structure Frame.Handled (f : Frame) : Prop where
  within : mainStep f.bytes ≠ .error .outOfRange
  index : IsUdp f.bytes → ∀ length, Word f.bytes 38 length →
    ((payloadIndex length).toNat : ℤ) = length - 8
  len : IsIcmp f.bytes → ∀ totalLen b, Word f.bytes 16 totalLen → Byte f.bytes 14 b →
    ((icmpLen totalLen (ipHeaderLen b)).toNat : ℤ) = totalLen - ipHeaderLen b * 4
  datalen : IsIcmp f.bytes → ∀ totalLen b, Word f.bytes 16 totalLen → Byte f.bytes 14 b →
    ((icmpDatalen (icmpLen totalLen (ipHeaderLen b))).toNat : ℤ) =
      (icmpLen totalLen (ipHeaderLen b)).toNat - 8

/-- **The fields fit the frame**: a datagram has its own header, and the frame a byte behind it; a
control message has the header of an echo request, and if it is one, the frame reaches to its
end. -/
structure Frame.Fits (f : Frame) : Prop where
  udp : IsUdp f.bytes → ∀ length, Word f.bytes 38 length →
    8 ≤ length ∧ 34 + length < f.bytes.length
  icmp : IsIcmp f.bytes → ∀ totalLen b, Word f.bytes 16 totalLen → Byte f.bytes 14 b →
    ipHeaderLen b * 4 + 8 ≤ totalLen ∧
      (Byte f.bytes 34 8 → 34 + totalLen ≤ f.bytes.length + ipHeaderLen b * 4)

section

variable {a : List UInt8} {length totalLen headerLen b : ℕ}

/-! ### Lengths -/

theorem payloadIndex_eq_iff (h : length < 65536) :
    ((payloadIndex length).toNat : ℤ) = length - 8 ↔ 8 ≤ length := by
  rw [payloadIndex, UInt64.ofInt, UInt64.toNat_ofNat']
  omega

/-- The terminator is written behind the datagram, also if the index wraps. -/
theorem payload_position (h : length < 65536) :
    (udpPacketSize + (payloadIndex length).toNat) % 2 ^ 64 = 34 + length := by
  rw [payloadIndex, UInt64.ofInt, UInt64.toNat_ofNat', udpPacketSize]
  omega

theorem icmpLen_eq_iff (h : totalLen < 65536) :
    ((icmpLen totalLen headerLen).toNat : ℤ) = totalLen - headerLen * 4 ↔
      headerLen * 4 ≤ totalLen := by
  rw [icmpLen, UInt16.ofInt, UInt16.toNat_ofNat']
  omega

theorem icmpDatalen_eq_iff (len : UInt16) :
    ((icmpDatalen len).toNat : ℤ) = len.toNat - 8 ↔ 8 ≤ len.toNat := by
  have hlt := len.toNat_lt
  rw [icmpDatalen, UInt64.toNat_toUInt16, UInt64.ofInt, UInt64.toNat_ofNat']
  omega

/-! ### Datagrams -/

theorem udpProcess_within_iff (hlength : Word a 38 length) (hheader : 8 ≤ length) :
    udpProcess a ≠ .error .outOfRange ↔ 34 + length < a.length := by
  rw [udpProcess, be16_eq_ok_iff.mpr hlength, Slots.ok_bind, payload_position hlength.lt,
    udpPacketSize]
  by_cases h : 34 + length < a.length
  · -- the terminator ends the payload
    have hzero : 0 ∈ (a.set (34 + length) 0).drop 42 := by
      rw [List.mem_iff_getElem?]
      refine ⟨length - 8, ?_⟩
      rw [List.getElem?_drop, show 42 + (length - 8) = 34 + length by omega,
        List.getElem?_set_self h]
    simp [store, text, h, hzero]
  · simp [store, h]

/-! ### Control messages -/

/-- The fields of the headers are in the frame. -/
theorem slice_headers (hlen : 42 ≤ a.length) (i n : ℕ) (h : i + n ≤ 42) :
    slice Fault.outOfRange a i n = .ok ((a.drop i).take n) := if_pos (h.trans hlen)

theorem addInt_ne_outOfRange (sum x : ℕ) : addInt sum x ≠ .error .outOfRange := by
  unfold addInt
  split_ifs
  · simp
  · simp

theorem sumWords_ne_outOfRange (w : List UInt8) (sum : ℕ) :
    sumWords w sum ≠ .error .outOfRange := by
  induction w, sum using sumWords.induct with
  | case1 lo hi w sum ih =>
    rw [sumWords]
    cases hadd : addInt sum (lo.toNat + 256 * hi.toNat) with
    | error e =>
      intro he
      obtain rfl := Except.error.inj he
      exact addInt_ne_outOfRange _ _ hadd
    | ok sum' => exact ih sum'
  | case2 sum lo => exact addInt_ne_outOfRange _ _
  | case3 sum => simp [sumWords]

theorem inCksum_ne_outOfRange (bytes : List UInt8) : inCksum bytes ≠ .error .outOfRange := by
  unfold inCksum
  cases hsum : sumWords bytes 0 with
  | error e =>
    intro he
    obtain rfl := Except.error.inj he
    exact sumWords_ne_outOfRange _ _ hsum
  | ok sum => simp

/-- An echo request is copied as far as its lengths say. -/
theorem icmpProcess_within_iff (hlen : 38 ≤ a.length) (htotal : Word a 16 totalLen)
    (hb : Byte a 14 b) : icmpProcess a ≠ .error .outOfRange ↔
      (Byte a 34 8 → 42 + (icmpDatalen (icmpLen totalLen (ipHeaderLen b))).toNat ≤ a.length) := by
  obtain ⟨type, htype⟩ := exists_byte (show 34 < a.length by omega)
  simp only [icmpProcess, be16_eq_ok_iff.mpr htotal, byte_eq_ok_iff.mpr hb,
    byte_eq_ok_iff.mpr htype, Slots.ok_bind]
  by_cases hping : type = 8
  · subst hping
    simp only [htype, forall_const, if_true, icmpPingPacketSize]
    generalize (icmpDatalen (icmpLen totalLen (ipHeaderLen b))).toNat = datalen
    by_cases hfit : 42 + datalen ≤ a.length
    · -- the other fields stand in the headers
      have hread := slice_headers (show 42 ≤ a.length by omega)
      simp only [show slice Fault.outOfRange a 0 (42 + datalen) = .ok _ from if_pos (by omega),
        hread 26 4 (by omega), hread 30 4 (by omega), hread 6 6 (by omega), hread 0 6 (by omega),
        Slots.ok_bind, hfit, iff_true]
      generalize hack : List.take (8 + datalen) _ = bytes
      cases hsum : inCksum bytes with
      | error e =>
        intro he
        obtain rfl := Except.error.inj he
        exact inCksum_ne_outOfRange bytes hsum
      | ok sum => simp
    · simp only [show slice Fault.outOfRange a 0 (42 + datalen) = .error _ from if_neg (by omega),
        Slots.error_bind, hfit, ne_eq, not_true_eq_false]
  · have hother : ¬Byte a 34 8 := fun h => hping (htype.unique h)
    simp [hping, hother]

/-! ### The dispatch -/

theorem mainStep_ip {proto : ℕ} (hip : Word a 12 protoIp) (hproto : Byte a 23 proto) :
    mainStep a = if proto = ipprotoUdp then udpProcess a >>= fun _ => .ok []
      else if proto = ipprotoIcmp then icmpProcess a else .ok [] := by
  simp only [mainStep, be16_eq_ok_iff.mpr hip, Slots.ok_bind, if_true, ipProcess,
    byte_eq_ok_iff.mpr hproto]

theorem arpProcess_within (hlen : arpPacketSize ≤ a.length) :
    arpProcess a ≠ .error .outOfRange := by
  unfold arpPacketSize at hlen
  obtain ⟨op, hop⟩ := exists_word (show 20 + 1 < a.length by omega)
  have hread := slice_headers hlen
  simp only [arpProcess, be16_eq_ok_iff.mpr hop, hread 22 6 (by omega), hread 28 4 (by omega),
    hread 38 4 (by omega), Slots.ok_bind, arpPacketSize, hread 0 42 (by omega)]
  split_ifs
  · simp
  · simp
  · simp

/-- What is neither a datagram nor a control message is handled within its headers. -/
theorem mainStep_other (f : Frame) (hudp : ¬IsUdp f.bytes) (hicmp : ¬IsIcmp f.bytes) :
    mainStep f.bytes ≠ .error .outOfRange := by
  have heth := f.eth
  obtain ⟨proto, hproto⟩ := exists_word (show 12 + 1 < f.bytes.length by omega)
  by_cases hip : proto = protoIp
  · subst hip
    have hlen := f.ip hproto
    obtain ⟨next, hnext⟩ := exists_byte (show 23 < f.bytes.length by omega)
    have hne : next ≠ ipprotoUdp := fun h => hudp ⟨hproto, h ▸ hnext⟩
    have hne' : next ≠ ipprotoIcmp := fun h => hicmp ⟨hproto, h ▸ hnext⟩
    rw [mainStep_ip hproto hnext, if_neg hne, if_neg hne']
    simp
  · simp only [mainStep, be16_eq_ok_iff.mpr hproto, Slots.ok_bind, if_neg hip]
    by_cases harp : proto = protoArp
    · rw [if_pos harp]
      exact arpProcess_within (f.arp (harp ▸ hproto))
    · simp [harp]

theorem mainStep_udp (h : IsUdp a) :
    mainStep a ≠ .error .outOfRange ↔ udpProcess a ≠ .error .outOfRange := by
  rw [mainStep_ip h.1 h.2, if_pos rfl]
  cases udpProcess a with
  | error e => simp
  | ok res => simp

theorem mainStep_icmp (h : IsIcmp a) : mainStep a = icmpProcess a := by
  rw [mainStep_ip h.1 h.2, if_neg (by decide), if_pos rfl]

theorem not_isIcmp_of_isUdp (h : IsUdp a) : ¬IsIcmp a :=
  fun h' => absurd (h.2.unique h'.2) (by decide)

end

namespace Frame

variable (f : Frame)

theorem handled_iff_of_udp (h : IsUdp f.bytes) : f.Handled ↔ f.Fits := by
  have hnot := not_isIcmp_of_isUdp h
  have hlen := f.udp h
  unfold udpPacketSize at hlen
  obtain ⟨length, hlength⟩ := exists_word (show 38 + 1 < f.bytes.length by omega)
  constructor
  · intro hf
    have hheader := (payloadIndex_eq_iff hlength.lt).mp (hf.index h length hlength)
    refine ⟨fun _ length' hlength' => ?_, fun h' => absurd h' hnot⟩
    obtain rfl := hlength.unique hlength'
    exact ⟨hheader, (udpProcess_within_iff hlength hheader).mp ((mainStep_udp h).mp hf.within)⟩
  · intro hf
    obtain ⟨hheader, hfit⟩ := hf.udp h length hlength
    refine ⟨(mainStep_udp h).mpr ((udpProcess_within_iff hlength hheader).mpr hfit),
      fun _ length' hlength' => ?_, fun h' => absurd h' hnot, fun h' => absurd h' hnot⟩
    obtain rfl := hlength.unique hlength'
    exact (payloadIndex_eq_iff hlength.lt).mpr hheader

theorem handled_iff_of_icmp (h : IsIcmp f.bytes) : f.Handled ↔ f.Fits := by
  have hnot : ¬IsUdp f.bytes := fun h' => not_isIcmp_of_isUdp h' h
  have hlen := f.icmp h
  obtain ⟨totalLen, htotal⟩ := exists_word (show 16 + 1 < f.bytes.length by omega)
  obtain ⟨b, hb⟩ := exists_byte (show 14 < f.bytes.length by omega)
  have hcopy := icmpProcess_within_iff hlen htotal hb
  rw [← mainStep_icmp h] at hcopy
  -- both lengths are `uint16_t`, and are right where nothing wraps around
  have hlenIff := @icmpLen_eq_iff totalLen (ipHeaderLen b) htotal.lt
  have hdataIff := icmpDatalen_eq_iff (icmpLen totalLen (ipHeaderLen b))
  constructor
  · intro hf
    have hl := hf.len h totalLen b htotal hb
    have hd := hf.datalen h totalLen b htotal hb
    have hl' := hlenIff.mp hl
    have hd' := hdataIff.mp hd
    refine ⟨fun h' => absurd h' hnot, fun _ totalLen' b' htotal' hb' => ?_⟩
    obtain rfl := htotal.unique htotal'
    obtain rfl := hb.unique hb'
    refine ⟨by omega, fun hping => ?_⟩
    have hend := hcopy.mp hf.within hping
    omega
  · intro hf
    obtain ⟨hheader, hend⟩ := hf.icmp h totalLen b htotal hb
    have hl := hlenIff.mpr (by omega)
    have hd := hdataIff.mpr (by omega)
    refine ⟨hcopy.mpr fun hping => ?_, fun h' => absurd h' hnot, fun _ totalLen' b' ht' hb' => ?_,
      fun _ totalLen' b' ht' hb' => ?_⟩
    · have := hend hping
      omega
    · obtain rfl := htotal.unique ht'
      obtain rfl := hb.unique hb'
      exact hl
    · obtain rfl := htotal.unique ht'
      obtain rfl := hb.unique hb'
      exact hd

/-- **A frame is handled within its length** if and only if its fields fit it. -/
theorem handled_iff : f.Handled ↔ f.Fits := by
  by_cases hudp : IsUdp f.bytes
  · exact f.handled_iff_of_udp hudp
  by_cases hicmp : IsIcmp f.bytes
  · exact f.handled_iff_of_icmp hicmp
  · exact iff_of_true ⟨mainStep_other f hudp hicmp, fun h => absurd h hudp, fun h => absurd h hicmp,
      fun h => absurd h hicmp⟩ ⟨fun h => absurd h hudp, fun h => absurd h hicmp⟩

/-- A frame with room for all headers. -/
def ofLong (bytes : List UInt8) (h : 42 ≤ bytes.length) : Frame where
  bytes := bytes
  eth := by omega
  arp := fun _ => h
  ip := fun _ => by omega
  udp := fun _ => h
  icmp := fun _ => by omega

end Frame

/-- The headers of a frame with a datagram or a control message to this host. -/
def sampleHeaders (totalLen proto : UInt8) : List UInt8 :=
  [0, 12, 41, 239, 226, 59, 0, 80, 86, 192, 0, 8, 8, 0] ++
    [0x45, 0, 0, totalLen, 0, 1, 0, 0, 64, proto, 0, 0, 192, 168, 131, 1] ++ localip

/-- **Two frames that are not handled within their lengths**: a datagram of 26 bytes that fills its
frame, and an echo request whose total length is zero. -/
theorem not_handled_sample :
    ¬(Frame.ofLong (sampleHeaders 46 17 ++ [4, 0, 4, 1, 0, 26, 0, 0] ++ List.replicate 18 97)
        (by decide)).Handled ∧
      ¬(Frame.ofLong (sampleHeaders 0 1 ++ [8, 0, 0, 0, 0, 1, 0, 1] ++ List.replicate 18 97)
        (by decide)).Handled :=
  ⟨fun h => h.within (by decide +kernel), fun h => h.within (by decide +kernel)⟩

end Stack

end BackendStudy
