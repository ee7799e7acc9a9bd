import BackendStudy.Reactor.Model
import BackendStudy.Lib.Slots

/-!
# What is sent back

A connection is to send back the stream that it receives: what `send` has accepted is at any time
a beginning of what has been received (`BackendStudy.Reactor.Echoes`). What `send_cb` offers is
the bytes that have been received last (`BackendStudy.Reactor.Inv`), and it hands back to
`recv_cb` whatever `send` returns; nothing that a call may return stops it
(`BackendStudy.Reactor.Inv.exists_step`). So bytes that are refused are left out: the connection
stays faithful as long as nothing is accepted after them, and no longer
(`BackendStudy.Reactor.run_echoes_iff`).
-/

namespace BackendStudy

namespace Reactor

open Slots Streams

variable {B : Type}

/-- **What is sent back is a beginning of what is received**: the bytes with their numbers, so that
none is left out and none is there twice. -/
def Echoes (s : Conn B) : Prop := s.accepted <+: s.received

/-- Then it is so for the bytes alone. -/
theorem Echoes.map_fst {s : Conn B} (h : Echoes s) :
    s.accepted.map Prod.fst <+: s.received.map Prod.fst := h.map _

/-! ### The callbacks -/

theorem write_eq (b : Buffer B) {bs : List B} (h : bs.length ≤ maxBufferSize) :
    ∃ b', b.write bs = .ok b' ∧ b'.bytes.take bs.length = bs :=
  ⟨_, dif_pos h, List.take_left⟩

/-- **`recv_cb` offers the bytes it has received**, and writes behind the end of no buffer. -/
theorem recvCb_bytes (c : Client B) {bs : List B} (h : bs.length ≤ maxBufferSize) :
    ∃ c', recvCb c (.bytes bs) = .ok (some c') ∧ c'.item.callback = .sendCb ∧
      c'.events = .epollout ∧ offered c' = bs ∧ c'.item.sendlength = bs.length := by
  obtain ⟨recvbuffer, hrecv, hreceived⟩ := write_eq c.item.recvbuffer h
  obtain ⟨sendbuffer, hsend, hoffered⟩ := write_eq c.item.sendbuffer h
  let item : SockItem B :=
    { callback := .sendCb
      recvbuffer := recvbuffer
      sendbuffer := sendbuffer
      recvlength := bs.length
      sendlength := bs.length }
  refine ⟨{ item := item, events := .epollout }, ?_, rfl, rfl, hoffered, rfl⟩
  simp only [recvCb, hrecv, hreceived, hsend, ok_bind]
  rfl

/-- **What `recv_cb` does**: without bytes the client stays as it is or is removed. -/
theorem recvCb_cases {c : Client B} {client : Option (Client B)} {r : RecvResult B}
    (hlen : r.received.length ≤ maxBufferSize) (h : recvCb c r = .ok client) :
    (r.received = [] ∧ (client = some c ∨ client = none)) ∨
      ∃ c', client = some c' ∧ c'.item.callback = .sendCb ∧ c'.events = .epollout ∧
        offered c' = r.received ∧ c'.item.sendlength = r.received.length := by
  cases r with
  | bytes bs =>
    obtain ⟨c', hc', hspec⟩ := recvCb_bytes c hlen
    exact Or.inr ⟨c', Except.ok.inj (h.symm.trans hc'), hspec⟩
  | closed => exact Or.inl ⟨rfl, Or.inr (Except.ok.inj h).symm⟩
  | failed errno =>
    refine Or.inl ⟨rfl, ?_⟩
    rw [recvCb] at h
    split_ifs at h
    · exact Or.inl (Except.ok.inj h).symm
    · exact Or.inr (Except.ok.inj h).symm

/-- Each result that `recv` can have is taken. -/
theorem exists_recvCb (c : Client B) {r : RecvResult B} (h : r.Possible) :
    ∃ client, recvCb c r = .ok client := by
  cases r with
  | bytes bs =>
    obtain ⟨c', hc', -⟩ := recvCb_bytes c h.2
    exact ⟨_, hc'⟩
  | closed => exact ⟨none, rfl⟩
  | failed errno =>
    rw [recvCb]
    split_ifs
    · exact ⟨_, rfl⟩
    · exact ⟨_, rfl⟩

theorem received_number (k : ℕ) (r : RecvResult B) :
    (r.number k).received = r.received.zipIdx k := by
  cases r <;> rfl

/-- The numbers of the bytes do not matter for what is possible. -/
theorem RecvResult.Possible.number {r : RecvResult B} (h : r.Possible) (k : ℕ) :
    (r.number k).Possible := by
  cases r with
  | bytes bs => simpa [RecvResult.number, RecvResult.Possible] using h
  | closed => trivial
  | failed errno => trivial

theorem RecvResult.Possible.length_le {r : RecvResult B} (h : r.Possible) :
    r.received.length ≤ maxBufferSize := by
  cases r with
  | bytes bs => exact h.2
  | closed => exact Nat.zero_le _
  | failed errno => exact Nat.zero_le _

/-! ### What every run keeps -/

/-- **The invariant**: the stream is numbered, no more has been accepted than received, the socket
is waited for in the direction of the callback, and a client that is to send has what has been
received last to offer, and has had none of it accepted. -/
structure Inv (s : Conn B) : Prop where
  numbered : Numbered s.received
  le : s.accepted.length ≤ s.received.length
  events : ∀ c, s.client = some c → (c.events = .epollin ↔ c.item.callback = .recvCb)
  offers : ∀ c, s.client = some c → c.item.callback = .sendCb →
    (offered c).length = c.item.sendlength ∧
      ∃ before, s.received = before ++ offered c ∧ s.accepted.length ≤ before.length

theorem inv_new (mem : SockItem (B × ℕ)) : Inv (Conn.new mem) where
  numbered := numbered_nil
  le := Nat.le_refl _
  events := by
    rintro c hc
    obtain rfl := Option.some.inj hc
    exact iff_of_true rfl rfl
  offers := by
    rintro c hc hcallback
    obtain rfl := Option.some.inj hc
    cases hcallback

/-- A step keeps the invariant. -/
theorem Inv.step {s s' : Conn B} {a : Answer B} (h : Inv s) (hs : Step s a s') : Inv s' := by
  cases hs with
  | @recv c client r hc hcallback hpossible hr =>
    have hcases := recvCb_cases (hpossible.number _).length_le hr
    rw [received_number] at hcases
    refine ⟨h.numbered.append _, ?_, ?_, ?_⟩
    · rw [List.length_append]
      -- the callback has been left as it was with nothing received, or a send has been asked for
      exact Nat.le_trans h.le (Nat.le_add_right _ _)
    · rintro c' rfl
      rcases hcases with ⟨-, hclient | hclient⟩ | ⟨c'', hclient, hsend, hout, -⟩
      · obtain rfl := Option.some.inj hclient
        exact h.events c' hc
      · cases hclient
      · obtain rfl := Option.some.inj hclient
        rw [hsend, hout]
        exact iff_of_false (by simp) (by simp)
    · rintro c' rfl hcallback'
      rcases hcases with ⟨-, hclient | hclient⟩ | ⟨c'', hclient, -, -, hoffered, hlen⟩
      · obtain rfl := Option.some.inj hclient
        rw [hcallback] at hcallback'
        cases hcallback'
      · cases hclient
      · obtain rfl := Option.some.inj hclient
        exact ⟨by rw [hoffered, hlen], s.received, by rw [hoffered], h.le⟩
  -- what was offered is what has been received last, and the callback is to receive again
  | @send c r hc hcallback hle =>
    obtain ⟨hlen, before, hbefore, hacc⟩ := h.offers c hc hcallback
    refine ⟨h.numbered, ?_, ?_, ?_⟩
    · simp only [hbefore, List.length_append, List.length_take]
      omega
    · rintro c' hc'
      obtain rfl := Option.some.inj hc'
      exact iff_of_true rfl rfl
    · rintro c' hc' hcallback'
      obtain rfl := Option.some.inj hc'
      cases hcallback'

/-- **No answer is left out**: whatever `recv` or `send` may return to a client, its callback takes
it. -/
theorem Inv.exists_step {s : Conn B} {c : Client (B × ℕ)} (h : Inv s) (hc : s.client = some c) :
    (c.item.callback = .recvCb ∧ ∀ r : RecvResult B, r.Possible → ∃ s', Step s (.recv r) s') ∨
      c.item.callback = .sendCb ∧
        ∀ r : SendResult, r.accepted ≤ c.item.sendlength → ∃ s', Step s (.send r) s' := by
  cases hcallback : c.item.callback with
  | recvCb =>
    refine Or.inl ⟨rfl, fun r hr => ?_⟩
    obtain ⟨client, hclient⟩ := exists_recvCb c (hr.number s.received.length)
    exact ⟨_, .recv hc hcallback hr hclient⟩
  | sendCb =>
    refine Or.inr ⟨rfl, fun r hr => ?_⟩
    rw [← (h.offers c hc hcallback).1] at hr
    exact ⟨_, .send hc hcallback hr⟩

/-! ### When the stream is sent back -/

/-- **The condition**: `send` accepts bytes only if all bytes have been accepted that had been
received before the ones it is called with. -/
def NothingRefused (s : Conn B) : Answer B → Prop
  | .recv _ => True
  | .send r => 0 < r.accepted → ∀ c, s.client = some c →
      s.accepted.length + c.item.sendlength = s.received.length

/-- **A step goes on faithfully** exactly if it meets the condition. -/
theorem Inv.echoes_iff {s s' : Conn B} {a : Answer B} (h : Inv s) (hechoes : Echoes s)
    (hs : Step s a s') : NothingRefused s a ↔ Echoes s' := by
  cases hs with
  | @recv c client r hc hcallback hpossible hr =>
    exact iff_of_true trivial (hechoes.trans (List.prefix_append _ _))
  | @send c r hc hcallback hle =>
    obtain ⟨hlen, before, hbefore, hacc⟩ := h.offers c hc hcallback
    have hnodup := h.numbered.nodup
    rw [Echoes, hbefore] at hechoes
    rw [hbefore] at hnodup
    rw [Echoes, hbefore, append_prefix_iff hnodup hechoes hacc (List.take_prefix _ _),
      NothingRefused, hbefore, List.length_append]
    have hsome : (offered c).take r.accepted ≠ [] ↔ 0 < r.accepted := by
      rw [← List.length_pos_iff, List.length_take]
      omega
    rw [hsome]
    refine forall_congr' fun hpos => ⟨fun hall => ?_, fun heq c' hc' => ?_⟩
    · have := hall c hc
      omega
    · obtain rfl := Option.some.inj (hc.symm.trans hc')
      omega

/-- **When a connection sends back what it receives**: what `send` has accepted is a beginning of
what has been received in every state of a run exactly if in each step of the run `send` accepts
bytes only after all that had been received before them. -/
theorem run_echoes_iff (mem : SockItem (B × ℕ)) {answers : List (Answer B)} {s : Conn B} :
    Runs.Run (Runs.guard NothingRefused Step) (Conn.new mem) answers s ↔
      Runs.Run (Runs.keeping Echoes Step) (Conn.new mem) answers s :=
  Runs.run_guard_iff (inv_new mem) (List.prefix_refl _) (fun _ _ _ h hs => h.step hs)
    fun _ _ _ h hechoes hs => h.echoes_iff hechoes hs

/-! ### A short send -/

/-- A round of the two callbacks: of the bytes that are received, those at the beginning are
accepted, as many as `send` takes. -/
theorem exists_round {s : Conn B} {c : Client (B × ℕ)} {bs : List B} {r : SendResult}
    (hc : s.client = some c) (hcallback : c.item.callback = .recvCb) (hpos : 0 < bs.length)
    (hle : bs.length ≤ maxBufferSize) (hr : r.accepted ≤ bs.length) :
    ∃ s₁ s₂ c₂, Step s (.recv (.bytes bs)) s₁ ∧ Step s₁ (.send r) s₂ ∧
      s₂.client = some c₂ ∧ c₂.item.callback = .recvCb ∧
      s₂.received = s.received ++ bs.zipIdx s.received.length ∧
      s₂.accepted = s.accepted ++ (bs.zipIdx s.received.length).take r.accepted := by
  have hle' : (bs.zipIdx s.received.length).length ≤ maxBufferSize := by
    rwa [List.length_zipIdx]
  obtain ⟨c₁, hrecv, hsend, -, hoffered, -⟩ := recvCb_bytes c hle'
  let s₁ : Conn B :=
    { s with
      client := some c₁
      received := s.received ++ bs.zipIdx s.received.length }
  have hr' : r.accepted ≤ (offered c₁).length := by rwa [hoffered, List.length_zipIdx]
  have hs₁ : s₁.client = some c₁ := rfl
  exact ⟨s₁, _, sendCb c₁ r, .recv hc hcallback ⟨hpos, hle⟩ hrecv, .send hs₁ hsend hr', rfl, rfl,
    rfl, by rw [hoffered]⟩

/-- A new item, on memory of zeros. -/
def zeroItem : SockItem (UInt8 × ℕ) where
  callback := .recvCb
  recvbuffer := ⟨List.replicate maxBufferSize (0, 0), List.length_replicate⟩
  sendbuffer := ⟨List.replicate maxBufferSize (0, 0), List.length_replicate⟩
  recvlength := 0
  sendlength := 0

/-- **A short send is forgotten**: of the bytes `97 98` the first one is accepted, the byte `99` is
received and accepted, and `98` is never sent. -/
theorem not_echoes_sample :
    ∃ s, Runs.Run Step (Conn.new zeroItem)
        [.recv (.bytes [97, 98]), .send (.count 1), .recv (.bytes [99]), .send (.count 1)] s ∧
      ¬Echoes s ∧ ¬s.accepted.map Prod.fst <+: s.received.map Prod.fst := by
  obtain ⟨s₁, s₂, c₂, hrecv, hsend, hc₂, hcallback₂, hreceived, haccepted⟩ :=
    @exists_round UInt8 (Conn.new zeroItem) (acceptCb zeroItem) [97, 98] (.count 1) rfl rfl
      (by decide) (by decide) (by decide)
  obtain ⟨s₃, s₄, -, hrecv', hsend', -, -, hreceived', haccepted'⟩ :=
    @exists_round UInt8 s₂ c₂ [99] (.count 1) hc₂ hcallback₂ (by decide) (by decide) (by decide)
  rw [hreceived] at hreceived' haccepted'
  rw [haccepted] at haccepted'
  have hplain : ¬s₄.accepted.map Prod.fst <+: s₄.received.map Prod.fst := by
    rw [hreceived', haccepted']
    decide
  exact ⟨s₄, (((Runs.Run.nil.snoc hrecv).snoc hsend).snoc hrecv').snoc hsend',
    fun hechoes => hplain hechoes.map_fst, hplain⟩

end Reactor

end BackendStudy
