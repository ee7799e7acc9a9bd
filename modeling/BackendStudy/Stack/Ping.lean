import BackendStudy.Stack.Checksum
import BackendStudy.Stack.Frames

/-!
# Replies to echo requests

An echo request is a frame whose lengths fit together and whose checksums are valid
(`BackendStudy.Stack.EchoRequest`); the header in front of the control message has from 5 to 15
words. The loop of `main` hands it to `icmp_process` (`BackendStudy.Stack.EchoRequest.mainStep_eq`),
which computes the length of the message with the length of the header, but looks for the message
behind a header of 5 words, and copies as much as such a frame would have.

So a request without options in its header gets its reply, with all that belongs to it
(`BackendStudy.Stack.EchoRequest.IsReply`), and one with options gets none, or a frame of another
length (`BackendStudy.Stack.EchoRequest.answered_iff`).
-/

namespace BackendStudy

namespace Stack

open Wire

/-- **An echo request** that is well formed. -/
structure EchoRequest where
  /-- The frame. -/
  bytes : List UInt8
  /-- The length of the header, in words of four bytes. -/
  headerLen : ℕ
  headerLen_ge : 5 ≤ headerLen
  headerLen_le : headerLen ≤ 15
  proto : Word bytes 12 protoIp
  version : Byte bytes 14 (0x40 + headerLen)
  /-- The message has its own header. -/
  length : 14 + 4 * headerLen + 8 ≤ bytes.length
  /-- The total length is the length of the frame behind its first header. -/
  totalLen : Word bytes 16 (bytes.length - 14)
  ipProto : Byte bytes 23 ipprotoIcmp
  ipCksum : ValidCksum ((bytes.drop 14).take (4 * headerLen))
  type : Byte bytes (14 + 4 * headerLen) 8
  code : Byte bytes (14 + 4 * headerLen + 1) 0
  icmpCksum : ValidCksum (bytes.drop (14 + 4 * headerLen))

namespace EchoRequest

/-- **A frame is the reply to the request.** -/
structure IsReply (r : EchoRequest) (reply : List UInt8) : Prop where
  length : reply.length = r.bytes.length
  dstMac : reply.take 6 = (r.bytes.drop 6).take 6
  srcMac : (reply.drop 6).take 6 = r.bytes.take 6
  srcIp : (reply.drop 26).take 4 = (r.bytes.drop 30).take 4
  dstIp : (reply.drop 30).take 4 = (r.bytes.drop 26).take 4
  ipCksum : ValidCksum ((reply.drop 14).take (4 * r.headerLen))
  type : Byte reply (14 + 4 * r.headerLen) 0
  code : Byte reply (14 + 4 * r.headerLen + 1) 0
  /-- The identifier, the sequence number and the data. -/
  data : reply.drop (14 + 4 * r.headerLen + 4) = r.bytes.drop (14 + 4 * r.headerLen + 4)
  icmpCksum : ValidCksum (reply.drop (14 + 4 * r.headerLen))

/-- **The request is answered** with its reply. -/
def Answered (r : EchoRequest) : Prop :=
  ∃ reply, icmpProcess r.bytes = .ok [reply] ∧ r.IsReply reply

end EchoRequest

/-! ### The frame that is injected -/

/-- The copy of a request before the checksum is written. -/
def echoAck (stream : List UInt8) (datalen : ℕ) : List UInt8 :=
  let ack := patch (stream.take (icmpPingPacketSize + datalen)) 35 [0]
  let ack := patch (patch ack 34 [0]) 36 [0, 0]
  let ack := patch ack 30 ((stream.drop 26).take 4)
  let ack := patch ack 26 ((stream.drop 30).take 4)
  let ack := patch ack 0 ((stream.drop 6).take 6)
  patch ack 6 (stream.take 6)

/-- **The fields of a frame** with a header of five words and the header of an echo request, and
what is behind them. -/
structure Fields where
  dstMac : List UInt8
  srcMac : List UInt8
  /-- From the protocol up to the checksum of the header. -/
  head : List UInt8
  srcIp : List UInt8
  dstIp : List UInt8
  type : UInt8
  code : UInt8
  cksum : List UInt8
  rest : List UInt8
  length_dstMac : dstMac.length = 6
  length_srcMac : srcMac.length = 6
  length_head : head.length = 14
  length_srcIp : srcIp.length = 4
  length_dstIp : dstIp.length = 4
  length_cksum : cksum.length = 2

namespace Fields

variable (f : Fields)

/-- The frame in front of the control message. -/
def front : List UInt8 := f.dstMac ++ (f.srcMac ++ (f.head ++ (f.srcIp ++ f.dstIp)))

/-- The control message. -/
def message : List UInt8 := [f.type] ++ ([f.code] ++ (f.cksum ++ f.rest))

/-- The frame. -/
def bytes : List UInt8 := f.front ++ f.message

/-- The frame with the addresses swapped. -/
def swap : Fields where
  dstMac := f.srcMac
  srcMac := f.dstMac
  head := f.head
  srcIp := f.dstIp
  dstIp := f.srcIp
  type := f.type
  code := f.code
  cksum := f.cksum
  rest := f.rest
  length_dstMac := f.length_srcMac
  length_srcMac := f.length_dstMac
  length_head := f.length_head
  length_srcIp := f.length_dstIp
  length_dstIp := f.length_srcIp
  length_cksum := f.length_cksum

theorem length_front : f.front.length = 34 := by
  simp only [front, List.length_append, f.length_dstMac, f.length_srcMac, f.length_head,
    f.length_srcIp, f.length_dstIp]

theorem length_message : f.message.length = 4 + f.rest.length := by
  simp only [message, List.length_append, List.length_singleton, f.length_cksum]
  omega

theorem length_bytes : f.bytes.length = 38 + f.rest.length := by
  rw [bytes, List.length_append, f.length_front, f.length_message]
  omega

theorem drop_front : f.bytes.drop 34 = f.message := List.drop_left' f.length_front

theorem bytes_eq : f.bytes = f.dstMac ++ (f.srcMac ++ (f.head ++ (f.srcIp ++ (f.dstIp ++
    f.message)))) := by
  simp only [bytes, front, List.append_assoc]

theorem take_dstMac : f.bytes.take 6 = f.dstMac := by
  rw [bytes_eq]
  exact List.take_left' f.length_dstMac

theorem take_srcMac : (f.bytes.drop 6).take 6 = f.srcMac := by
  rw [bytes_eq, List.drop_left' f.length_dstMac]
  exact List.take_left' f.length_srcMac

theorem drop_head : f.bytes.drop 12 = f.head ++ (f.srcIp ++ (f.dstIp ++ f.message)) := by
  have hsplit : f.bytes.drop 12 = (f.bytes.drop 6).drop 6 := by rw [List.drop_drop]
  rw [hsplit, bytes_eq, List.drop_left' f.length_dstMac, List.drop_left' f.length_srcMac]

theorem take_srcIp : (f.bytes.drop 26).take 4 = f.srcIp := by
  have hsplit : f.bytes.drop 26 = (f.bytes.drop 12).drop 14 := by rw [List.drop_drop]
  rw [hsplit, drop_head, List.drop_left' f.length_head]
  exact List.take_left' f.length_srcIp

theorem take_dstIp : (f.bytes.drop 30).take 4 = f.dstIp := by
  have hsplit : f.bytes.drop 30 = ((f.bytes.drop 12).drop 14).drop 4 := by
    rw [List.drop_drop, List.drop_drop]
  rw [hsplit, drop_head, List.drop_left' f.length_head, List.drop_left' f.length_srcIp]
  exact List.take_left' f.length_dstIp

/-- The header of five words. -/
theorem take_header : (f.bytes.drop 14).take 20 = f.head.drop 2 ++ (f.srcIp ++ f.dstIp) := by
  have hsplit : f.bytes.drop 14 = (f.bytes.drop 12).drop 2 := by rw [List.drop_drop]
  have hhead := f.length_head
  have hlength : (f.head.drop 2 ++ (f.srcIp ++ f.dstIp)).length = 20 := by
    simp only [List.length_append, List.length_drop, f.length_head, f.length_srcIp, f.length_dstIp]
  rw [hsplit, drop_head, List.drop_append_of_le_length (by omega)]
  simp only [← List.append_assoc] at hlength ⊢
  exact List.take_left' hlength

/-- What is behind the header of a control message. -/
theorem drop_rest : f.bytes.drop 38 = f.rest := by
  have hsplit : f.bytes.drop 38 = (f.bytes.drop 34).drop 4 := by rw [List.drop_drop]
  have hlength : ([f.type] ++ ([f.code] ++ f.cksum)).length = 4 := by
    simp only [List.length_append, List.length_singleton, f.length_cksum]
  have hmessage : f.message = [f.type] ++ ([f.code] ++ f.cksum) ++ f.rest := by
    simp only [message, List.append_assoc]
  rw [hsplit, drop_front, hmessage]
  exact List.drop_left' hlength

theorem getElem?_message (i : ℕ) : f.bytes[34 + i]? = f.message[i]? := by
  rw [← List.getElem?_drop, drop_front]

theorem byte_type : Byte f.bytes 34 f.type.toNat := ⟨f.type, f.getElem?_message 0, rfl⟩

theorem byte_code : Byte f.bytes 35 f.code.toNat := ⟨f.code, f.getElem?_message 1, rfl⟩

/-! ### Writing a field -/

theorem patch_message {i : ℕ} (w : List UInt8) (h : 34 ≤ i) :
    patch f.bytes i w = f.front ++ patch f.message (i - 34) w := by
  rw [bytes, patch_append (by rw [f.length_front]; exact h), f.length_front]

theorem patch_type (b : UInt8) : patch f.bytes 34 [b] = { f with type := b }.bytes := by
  have hlen : [f.type].length = [b].length := rfl
  rw [f.patch_message [b] (le_refl 34), message, Nat.sub_self, patch_zero hlen]
  rfl

theorem patch_code (b : UInt8) : patch f.bytes 35 [b] = { f with code := b }.bytes := by
  have hlen : [f.code].length = [b].length := rfl
  have htype : [f.type].length ≤ 35 - 34 := le_refl 1
  rw [f.patch_message [b] (by decide), message, patch_append htype]
  change f.front ++ ([f.type] ++ patch ([f.code] ++ (f.cksum ++ f.rest)) 0 [b]) = _
  rw [patch_zero hlen]
  rfl

theorem patch_cksum {w : List UInt8} (hw : w.length = 2) :
    patch f.bytes 36 w = { f with cksum := w, length_cksum := hw }.bytes := by
  have htype : [f.type].length ≤ 36 - 34 := Nat.le_succ 1
  have hcode : [f.code].length ≤ 1 := le_refl 1
  rw [f.patch_message w (by decide), message, patch_append htype]
  change f.front ++ ([f.type] ++ patch ([f.code] ++ (f.cksum ++ f.rest)) 1 w) = _
  rw [patch_append hcode]
  change f.front ++ ([f.type] ++ ([f.code] ++ patch (f.cksum ++ f.rest) 0 w)) = _
  rw [patch_zero (f.length_cksum.trans hw.symm)]
  rfl

theorem patch_dstMac {w : List UInt8} (hw : w.length = 6) :
    patch f.bytes 0 w = { f with dstMac := w, length_dstMac := hw }.bytes := by
  rw [bytes_eq, patch_zero (f.length_dstMac.trans hw.symm), bytes_eq]
  rfl

theorem patch_srcMac {w : List UInt8} (hw : w.length = 6) :
    patch f.bytes 6 w = { f with srcMac := w, length_srcMac := hw }.bytes := by
  rw [bytes_eq, patch_append f.length_dstMac.le, f.length_dstMac,
    patch_zero (f.length_srcMac.trans hw.symm), bytes_eq]
  rfl

/-- Writing behind the first header. -/
theorem patch_ip {i : ℕ} (w : List UInt8) : patch f.bytes (26 + i) w =
    f.dstMac ++ (f.srcMac ++ (f.head ++ patch (f.srcIp ++ (f.dstIp ++ f.message)) i w)) := by
  rw [bytes_eq, patch_append (by rw [f.length_dstMac]; omega), f.length_dstMac,
    patch_append (by rw [f.length_srcMac]; omega), f.length_srcMac,
    patch_append (by rw [f.length_head]; omega), f.length_head,
    show 26 + i - 6 - 6 - 14 = i by omega]

theorem patch_srcIp {w : List UInt8} (hw : w.length = 4) :
    patch f.bytes 26 w = { f with srcIp := w, length_srcIp := hw }.bytes := by
  have hpatch := @patch_ip f 0 w
  rw [patch_zero (f.length_srcIp.trans hw.symm)] at hpatch
  exact hpatch.trans (bytes_eq { f with srcIp := w, length_srcIp := hw }).symm

theorem patch_dstIp {w : List UInt8} (hw : w.length = 4) :
    patch f.bytes 30 w = { f with dstIp := w, length_dstIp := hw }.bytes := by
  have hpatch := @patch_ip f 4 w
  rw [patch_append f.length_srcIp.le, f.length_srcIp, Nat.sub_self,
    patch_zero (f.length_dstIp.trans hw.symm)] at hpatch
  exact hpatch.trans (bytes_eq { f with dstIp := w, length_dstIp := hw }).symm

/-- The frame is cut off behind the first bytes of its rest. -/
theorem take_bytes (n : ℕ) :
    f.bytes.take (38 + n) = { f with rest := f.rest.take n }.bytes := by
  have hfront : (f.front ++ ([f.type] ++ ([f.code] ++ f.cksum))).length = 38 := by
    simp only [List.length_append, List.length_singleton, f.length_front, f.length_cksum]
  have hassoc : ∀ rest : List UInt8, f.front ++ ([f.type] ++ ([f.code] ++ (f.cksum ++ rest))) =
      f.front ++ ([f.type] ++ ([f.code] ++ f.cksum)) ++ rest := by
    intro rest
    simp only [List.append_assoc]
  rw [bytes, message, hassoc, List.take_append, hfront, Nat.add_sub_cancel_left,
    List.take_of_length_le (by rw [hfront]; omega), ← hassoc]
  rfl

/-- The reply before its checksum is written. -/
def ack (n : ℕ) : Fields :=
  { f.swap with type := 0, code := 0, cksum := [0, 0], rest := f.rest.take n, length_cksum := rfl }

/-- The reply, with its checksum. -/
def reply (n : ℕ) (v : UInt16) : Fields :=
  { f.ack n with cksum := leBytes v, length_cksum := rfl }

/-- Swapping the addresses keeps the checksum of the header. -/
theorem validCksum_header {n : ℕ} {v : UInt16} (h : ValidCksum ((f.bytes.drop 14).take 20)) :
    ValidCksum (((f.reply n v).bytes.drop 14).take 20) := by
  have hhead : (f.head.drop 2).length % 2 = 0 := by rw [List.length_drop, f.length_head]
  have hsrcIp : f.srcIp.length % 2 = 0 := by rw [f.length_srcIp]
  have hdstIp : f.dstIp.length % 2 = 0 := by rw [f.length_dstIp]
  rw [take_header] at h ⊢
  exact validCksum_swap hhead hsrcIp hdstIp h

/-- The checksum of the message is the one that is written. -/
theorem validCksum_message {n : ℕ} {v : UInt16} (hlen : (f.ack n).message.length ≤ 65535)
    (hv : inCksum (f.ack n).message = .ok v) : ValidCksum (f.reply n v).message :=
  validCksum_field (A := [0, 0]) rfl hv hlen

/-- **What `icmp_process` makes of the copy.** -/
theorem echoAck_eq (datalen : ℕ) : echoAck f.bytes datalen = (f.ack (4 + datalen)).bytes := by
  have hcopy : icmpPingPacketSize + datalen = 38 + (4 + datalen) := by
    rw [icmpPingPacketSize]
    omega
  rw [echoAck, hcopy, take_bytes, take_srcIp, take_dstIp, take_srcMac, take_dstMac]
  simp only [patch_code, patch_type, @patch_cksum _ [0, 0] rfl, patch_dstIp _ f.length_srcIp,
    patch_srcIp _ f.length_dstIp, patch_dstMac _ f.length_srcMac, patch_srcMac _ f.length_dstMac]
  rfl

end Fields

/-- A frame with all these fields. -/
theorem exists_fields {a : List UInt8} (h : 38 ≤ a.length) : ∃ f : Fields, f.bytes = a := by
  have hcut : ∀ (n : ℕ) (l : List UInt8), n ≤ l.length → ∃ x y, x.length = n ∧ l = x ++ y :=
    fun n l hn => ⟨l.take n, l.drop n, List.length_take_of_le hn, (List.take_append_drop n l).symm⟩
  obtain ⟨dstMac, a, hdstMac, rfl⟩ := hcut 6 a (by omega)
  rw [List.length_append, hdstMac] at h
  obtain ⟨srcMac, a, hsrcMac, rfl⟩ := hcut 6 a (by omega)
  rw [List.length_append, hsrcMac] at h
  obtain ⟨head, a, hhead, rfl⟩ := hcut 14 a (by omega)
  rw [List.length_append, hhead] at h
  obtain ⟨srcIp, a, hsrcIp, rfl⟩ := hcut 4 a (by omega)
  rw [List.length_append, hsrcIp] at h
  obtain ⟨dstIp, a, hdstIp, rfl⟩ := hcut 4 a (by omega)
  rw [List.length_append, hdstIp] at h
  obtain ⟨type, a, rfl⟩ := List.exists_cons_of_length_pos (show 0 < a.length by omega)
  rw [List.length_cons] at h
  obtain ⟨code, a, rfl⟩ := List.exists_cons_of_length_pos (show 0 < a.length by omega)
  rw [List.length_cons] at h
  obtain ⟨cksum, rest, hcksum, rfl⟩ := hcut 2 a (by omega)
  let f : Fields := ⟨dstMac, srcMac, head, srcIp, dstIp, type, code, cksum, rest, hdstMac, hsrcMac,
    hhead, hsrcIp, hdstIp, hcksum⟩
  exact ⟨f, f.bytes_eq⟩

/-! ### The control message that is found -/

theorem ipHeaderLen_version {n : ℕ} (h : n ≤ 15) : ipHeaderLen (0x40 + n) = n := by
  have hmask : (0x40 + n) &&& 0x0F = (0x40 + n) % 16 := Nat.and_two_pow_sub_one_eq_mod _ 4
  rw [ipHeaderLen, hmask]
  omega

/-- Of what is no echo request where it is looked for, nothing is injected. -/
theorem icmpProcess_other {a : List UInt8} {totalLen b type : ℕ} (htotal : Word a 16 totalLen)
    (hb : Byte a 14 b) (htype : Byte a 34 type) (hne : type ≠ 8) : icmpProcess a = .ok [] := by
  simp only [icmpProcess, be16_eq_ok_iff.mpr htotal, byte_eq_ok_iff.mpr hb,
    byte_eq_ok_iff.mpr htype, Slots.ok_bind, if_neg hne]

/-- **What is injected** for an echo request behind a header of five words: the copy with the
checksum of its message. -/
theorem icmpProcess_eq {a : List UInt8} {totalLen b datalen : ℕ} (htotal : Word a 16 totalLen)
    (hb : Byte a 14 b) (htype : Byte a 34 8)
    (hdatalen : (icmpDatalen (icmpLen totalLen (ipHeaderLen b))).toNat = datalen)
    (hfit : 42 + datalen ≤ a.length) (hle : datalen ≤ 65527) :
    ∃ (f : Fields) (v : UInt16), f.bytes = a ∧ inCksum (f.ack (4 + datalen)).message = .ok v ∧
      (f.ack (4 + datalen)).rest.length = 4 + datalen ∧
      icmpProcess a = .ok [(f.reply (4 + datalen) v).bytes] := by
  obtain ⟨f, rfl⟩ := exists_fields (show 38 ≤ a.length by omega)
  have hrest : (f.ack (4 + datalen)).rest.length = 4 + datalen := by
    rw [f.length_bytes] at hfit
    exact List.length_take_of_le (by omega)
  have hmessage := (f.ack (4 + datalen)).length_message
  rw [hrest] at hmessage
  have hsum := inCksum_ok (show (f.ack (4 + datalen)).message.length ≤ 65535 by omega)
  refine ⟨f, _, rfl, hsum, hrest, ?_⟩
  have hread := slice_headers (show 42 ≤ f.bytes.length by omega)
  have hcopy : slice Fault.outOfRange f.bytes 0 (42 + datalen) =
      .ok (f.bytes.take (42 + datalen)) :=
    if_pos (by omega)
  simp only [icmpProcess, be16_eq_ok_iff.mpr htotal, byte_eq_ok_iff.mpr hb,
    byte_eq_ok_iff.mpr htype, hdatalen, icmpPingPacketSize, hcopy, hread 26 4 (by omega),
    hread 30 4 (by omega), hread 6 6 (by omega), hread 0 6 (by omega), Slots.ok_bind, if_true]
  change (inCksum (((echoAck f.bytes datalen).drop 34).take (8 + datalen)) >>= fun sum =>
    .ok [patch (echoAck f.bytes datalen) 36 (leBytes sum)]) = _
  rw [f.echoAck_eq, Fields.drop_front, List.take_of_length_le (by omega), hsum, Slots.ok_bind,
    Fields.patch_cksum _ rfl]
  rfl

namespace EchoRequest

variable (r : EchoRequest)

theorem mainStep_eq : mainStep r.bytes = icmpProcess r.bytes :=
  mainStep_ip r.proto r.ipProto

/-- The lengths say where the data begin. -/
theorem datalen : (icmpDatalen (icmpLen (r.bytes.length - 14)
    (ipHeaderLen (0x40 + r.headerLen)))).toNat = r.bytes.length - 22 - 4 * r.headerLen := by
  have hlength := r.length
  have hicmp := (@icmpLen_eq_iff _ r.headerLen r.totalLen.lt).mpr (by omega)
  rw [ipHeaderLen_version r.headerLen_le]
  have hdata := (icmpDatalen_eq_iff (icmpLen (r.bytes.length - 14) r.headerLen)).mpr (by omega)
  omega

/-- **What is injected for a request** where it is taken for one. -/
theorem icmpProcess_eq (htype : Byte r.bytes 34 8) :
    ∃ (f : Fields) (v : UInt16), f.bytes = r.bytes ∧
      inCksum (f.ack (r.bytes.length - 18 - 4 * r.headerLen)).message = .ok v ∧
      (f.ack (r.bytes.length - 18 - 4 * r.headerLen)).rest.length =
        r.bytes.length - 18 - 4 * r.headerLen ∧
      icmpProcess r.bytes =
        .ok [(f.reply (r.bytes.length - 18 - 4 * r.headerLen) v).bytes] := by
  have hlength := r.length
  have hlow := r.headerLen_ge
  have htotal := r.totalLen.lt
  have hprocess := Stack.icmpProcess_eq r.totalLen r.version htype r.datalen (by omega) (by omega)
  rw [show 4 + (r.bytes.length - 22 - 4 * r.headerLen) = r.bytes.length - 18 - 4 * r.headerLen by
    omega] at hprocess
  exact hprocess

/-- A reply is as long as a request with a header of five words. -/
theorem length_of_icmpProcess {reply : List UInt8} (h : icmpProcess r.bytes = .ok [reply]) :
    reply.length = r.bytes.length + 20 - 4 * r.headerLen := by
  have hlength := r.length
  have hlow := r.headerLen_ge
  obtain ⟨type, htype⟩ := exists_byte (show 34 < r.bytes.length by omega)
  by_cases hping : type = 8
  · subst hping
    obtain ⟨f, v, -, -, hrest, hok⟩ := r.icmpProcess_eq htype
    rw [h, Except.ok.injEq, List.cons.injEq] at hok
    rw [hok.1, Fields.length_bytes]
    change 38 + (f.ack (r.bytes.length - 18 - 4 * r.headerLen)).rest.length = _
    omega
  · rw [icmpProcess_other r.totalLen r.version htype hping] at h
    simp at h

/-- **Without options** the injected frame is the reply. -/
theorem answered_of_headerLen (h : r.headerLen = 5) : r.Answered := by
  have hlength := r.length
  have hoffset : 14 + 4 * r.headerLen = 34 := by omega
  have hheader : 4 * r.headerLen = 20 := by omega
  have htype := r.type
  rw [hoffset] at htype
  obtain ⟨f, v, hf, hsum, hrest, hok⟩ := r.icmpProcess_eq htype
  have hbytes := f.length_bytes
  rw [hf] at hbytes
  -- what is summed up is the whole rest of the frame
  have hwhole : f.rest.take (r.bytes.length - 18 - 4 * r.headerLen) = f.rest :=
    List.take_of_length_le (by omega)
  have hip := r.ipCksum
  refine ⟨_, hok, ?_⟩
  rw [hheader, ← hf] at hip
  constructor
  case length =>
    rw [Fields.length_bytes]
    change 38 + (f.ack _).rest.length = _
    omega
  case dstMac =>
    rw [Fields.take_dstMac, ← hf, f.take_srcMac]
    rfl
  case srcMac =>
    rw [Fields.take_srcMac, ← hf, f.take_dstMac]
    rfl
  case srcIp =>
    rw [Fields.take_srcIp, ← hf, f.take_dstIp]
    rfl
  case dstIp =>
    rw [Fields.take_dstIp, ← hf, f.take_srcIp]
    rfl
  case ipCksum =>
    rw [hheader]
    exact f.validCksum_header hip
  case type =>
    rw [hoffset]
    exact Fields.byte_type _
  case code =>
    rw [hoffset]
    exact Fields.byte_code _
  -- the data are behind the fields, and come back as they were
  case data =>
    rw [hoffset, Fields.drop_rest, ← hf, f.drop_rest, hf]
    exact hwhole
  case icmpCksum =>
    rw [hoffset, Fields.drop_front]
    have hmessage := (f.ack (r.bytes.length - 18 - 4 * r.headerLen)).length_message
    have htotal := r.totalLen.lt
    exact f.validCksum_message (by omega) hsum

/-- **A request is answered with its reply exactly if its header has no options.** -/
theorem answered_iff : r.Answered ↔ r.headerLen = 5 := by
  refine ⟨?_, r.answered_of_headerLen⟩
  rintro ⟨reply, hok, hreply⟩
  have hlength := r.length
  have hlow := r.headerLen_ge
  have hinjected := r.length_of_icmpProcess hok
  have hsame := hreply.length
  omega

end EchoRequest

/-- A request with one word of options. -/
def optionsRequest : EchoRequest where
  bytes := [0, 12, 41, 239, 226, 59, 0, 80, 86, 192, 0, 8, 8, 0,
    0x46, 0, 0, 32, 0, 0, 0, 0, 64, 1, 240, 8, 192, 168, 131, 1, 192, 168, 131, 129, 1, 1, 1, 0,
    8, 0, 247, 253, 0, 1, 0, 1]
  headerLen := 6
  headerLen_ge := by decide
  headerLen_le := by decide
  proto := ⟨8, 0, rfl, rfl, rfl⟩
  version := ⟨0x46, rfl, rfl⟩
  length := by decide
  totalLen := ⟨0, 32, rfl, rfl, rfl⟩
  ipProto := ⟨1, rfl, rfl⟩
  ipCksum := by decide
  type := ⟨8, rfl, rfl⟩
  code := ⟨0, rfl, rfl⟩
  icmpCksum := by decide

/-- Its options are taken for the message. -/
theorem not_answered_sample : ¬optionsRequest.Answered := by
  have hnone : icmpProcess optionsRequest.bytes = .ok [] := rfl
  rintro ⟨reply, hok, -⟩
  rw [hnone] at hok
  simp at hok

end Stack

end BackendStudy
