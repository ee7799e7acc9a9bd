import BackendStudy.Hiredis.Context

/-!
# Replies come in the order of the commands

The client of a connection appends commands and asks for replies, at any time; the network takes
what is written and delivers what has been answered in pieces; the server answers one command
after another (`BackendStudy.Hiredis.System.step`). In any order of the steps, what
`redisGetReply` returns are the answers to the commands, in the order of the commands, and the
reader does not fail (`BackendStudy.Hiredis.System.run_returned`). The client does not wait in
vain: while a command has not been answered or an answer has not been returned, something is on
its way (`BackendStudy.Hiredis.System.run_waiting`). Nor does a call of it fault, whatever the
network delivers (`BackendStudy.Hiredis.System.run_client`). All this is for buffers that stay below
`2 ^ 31` bytes (`BackendStudy.Hiredis.System.Fits`).
-/

namespace BackendStudy

namespace Hiredis

open Slots Redis Incremental

/-- **A server**, which answers a command by its state, with the text of a reply. -/
structure Server (σ : Type) where
  /-- The next state, the reply and its text. -/
  serve : σ → List Str → σ × Reply × Str
  /-- The text is that of the reply, whose arrays are nested no deeper than the reader reads. -/
  wire : ∀ s argv, Wire 0 (serve s argv).2.1 (serve s argv).2.2

namespace Server

variable {σ : Type} (srv : Server σ)

/-- The state after commands. -/
def after (s : σ) (argvs : List (List Str)) : σ :=
  argvs.foldl (fun s argv => (srv.serve s argv).1) s

/-- The answers to commands. -/
def answers : σ → List (List Str) → List Reply
  | _, [] => []
  | s, argv :: argvs => (srv.serve s argv).2.1 :: answers (srv.serve s argv).1 argvs

theorem answers_append (s : σ) (argvs argvs' : List (List Str)) :
    srv.answers s (argvs ++ argvs') =
      srv.answers s argvs ++ srv.answers (srv.after s argvs) argvs' := by
  induction argvs generalizing s with
  | nil => rfl
  | cons argv argvs ih =>
    rw [List.cons_append, answers, answers, ih]
    rfl

theorem length_answers (s : σ) (argvs : List (List Str)) :
    (srv.answers s argvs).length = argvs.length := by
  induction argvs generalizing s with
  | nil => rfl
  | cons argv argvs ih => rw [answers, List.length_cons, List.length_cons, ih]

end Server

/-- What happens in the system. -/
inductive Event (ν : Type)
  /-- The client appends a command. -/
  | append (format : Str) (ap : List (VaArg ν))
  /-- The client calls `redisGetReply`. -/
  | getReply
  /-- A round of the loop that writes. -/
  | write (nwritten : WriteResult)
  /-- A round of the loop that reads. -/
  | read (nread : ReadResult)
  /-- The server reads a command and answers. -/
  | serve (argv : List Str)
  /-- The client frees a reply that it holds. -/
  | freeReply (i : ℕ)

/-- The client, the server, and what is on its way. -/
structure System (σ : Type) where
  /-- The client. -/
  client : Client
  /-- What has been written and not been read by the server. -/
  toServer : Str
  /-- What has been answered and not been read by the client. -/
  toClient : Str
  /-- The state of the server. -/
  server : σ
  /-- The commands that have been appended. -/
  cmds : List (List Str)
  /-- What `redisGetReply` has returned. -/
  returned : List (Option Reply)
  /-- The replies that the client holds. -/
  held : List ℕ

namespace System

section

variable {σ : Type} (srv : Server σ) {ν : Type} (vprintf : Str → ν → Str)

/-- A blocking connection, on which nothing has been sent. -/
def start (s₀ : σ) : System σ :=
  ⟨⟨.connected true ⟨fun _ => none, 0⟩, .idle, none⟩, [], [], s₀, [], [], []⟩

/-- The client after a call, which may have returned a reply. -/
def update (s : System σ) (c : Client) : System σ :=
  let reply := if c.phase = .idle then c.last.bind Prod.snd else none
  { s with
    client := c
    returned := s.returned ++ reply.toList.map c.ctx.reader.heap.reply
    held := s.held ++ reply.toList }

/-- **A step of the system**, where it can be taken. A `write` writes no more than it is given, and
a `read` reads what is there, up to the size of the buffer; after an error of the connection there
is neither. -/
def step (s : System σ) : Event ν → Option (System σ)
  | .append format ap =>
    if s.client.phase = .idle then
      match formatArgv vprintf format ap, s.client.ctx.redisvAppendCommand vprintf format ap with
      | .ok argv, .ok (_, ctx) =>
        some { s with client := { s.client with ctx := ctx }, cmds := s.cmds ++ argv.toList }
      | _, _ => none
    else none
  | .getReply =>
    if s.client.phase = .idle then
      match s.client.getReply with
      | .ok c => some (s.update c)
      | .error _ => none
    else none
  | .write (.written n) =>
    if s.client.phase = .writing ∧ n ≤ s.client.ctx.offered.length then
      some { s with
        client := s.client.write (.written n)
        toServer := s.toServer ++ s.client.ctx.offered.take n }
    else none
  | .write nwritten =>
    if s.client.phase = .writing then some { s with client := s.client.write nwritten } else none
  | .read (.bytes buf) =>
    if s.client.phase = .reading ∧ s.client.ctx.err.isNone ∧ buf ≠ [] ∧ buf.length ≤ 1024 * 16 ∧
        buf <+: s.toClient then
      match s.client.read (.bytes buf) with
      | .ok c => some { s.update c with toClient := s.toClient.drop buf.length }
      | .error _ => none
    else none
  | .read nread =>
    if s.client.phase = .reading then
      match s.client.read nread with
      | .ok c => some (s.update c)
      | .error _ => none
    else none
  | .serve argv =>
    if protocol argv <+: s.toServer then
      let (server, _, text) := srv.serve s.server argv
      some { s with
        server := server
        toServer := s.toServer.drop (protocol argv).length
        toClient := s.toClient ++ text }
    else none
  | .freeReply i =>
    match s.held[i]? with
    | none => none
    | some p =>
      let reader := s.client.ctx.reader
      match reader.heap.freeReplyObject reader.heap.next (some p) with
      | .ok heap =>
        some { s with
          client := { s.client with ctx := { s.client.ctx with
            reader := { reader with heap := heap } } }
          held := s.held.eraseIdx i }
      | .error _ => none

/-- How long the text of a command is, if there is one. -/
def cmdLength (format : Str) (ap : List (VaArg ν)) : ℕ :=
  match formatArgv vprintf format ap with
  | .ok (some argv) => (protocol argv).length
  | _ => 0

/-- The output buffer and what is read stay below `2 ^ 31` bytes. The formatter and `sdsrange` count
bytes in an `int`, and so does the reader. -/
def Fits (s : System σ) : Event ν → Prop
  | .append format ap => s.client.ctx.obuf.length + cmdLength vprintf format ap < 2 ^ 31
  | .read (.bytes buf) => s.client.ctx.reader.buf.length + buf.length < 2 ^ 31
  | _ => True

instance (s : System σ) (e : Event ν) : Decidable (s.Fits vprintf e) :=
  match e with
  | .append _ _ => inferInstanceAs (Decidable (_ < _))
  | .read (.bytes _) => inferInstanceAs (Decidable (_ < _))
  | .read (.error _ _) | .read .closed | .getReply | .write _ | .serve _ | .freeReply _ =>
    .isTrue trivial

/-- The steps that fit. -/
def steps : System σ → Event ν → System σ → Prop :=
  Runs.guard (Fits vprintf) fun s e s' => s.step srv vprintf e = some s'

end

end System

section

variable {σ : Type} {srv : Server σ} {ν : Type} {vprintf : Str → ν → Str} {s₀ : σ}
  {s s' : System σ} {c : RedisContext} {fed w : Str} {outs rs vs : List Reply} {es : List ℕ}
  {answered pending : List (List Str)} {argv : List Str} {n : ℕ}

/-! ### The calls of the client -/

/-- A format that is not valid is an error of the connection. -/
theorem redisvAppendCommand_none {format : Str} {ap : List (VaArg ν)}
    (h : formatArgv vprintf format ap = .ok none) :
    c.redisvAppendCommand vprintf format ap =
      .ok (.err, c.setError .other "Invalid format string".toList) := by
  rw [RedisContext.redisvAppendCommand, redisvFormatCommand, h]
  rfl

/-- A command is appended to the output buffer. -/
theorem redisvAppendCommand_some {format : Str} {ap : List (VaArg ν)}
    (h : formatArgv vprintf format ap = .ok (some argv)) :
    c.redisvAppendCommand vprintf format ap = .ok (.ok, c.redisAppendCommand' (protocol argv)) := by
  rw [RedisContext.redisvAppendCommand, redisvFormatCommand, h]
  rfl

/-- `redisGetReplyFromReader`, where what has been fed may go on as texts of replies: no reply, and
the machine waits, or the next reply. -/
theorem redisGetReplyFromReader_eq (h : Tracks c.reader fed outs es rs)
    (hw : Wires 0 vs (fed ++ w)) :
    ∃ aux reader, c.redisGetReplyFromReader = .ok (.ok, aux, { c with reader := reader }) ∧
      ((aux = none ∧ Waits reader fed outs ∧ Tracks reader fed outs es rs) ∨
        ∃ p v, aux = some p ∧ reader.heap.reply p = some v ∧
          Tracks reader fed (outs ++ [v]) (es ++ [p]) (rs ++ [v])) := by
  obtain ⟨x, hx, hgets⟩ := h.getReply
  cases hgets with
  | @waits r hwait htracks =>
    refine ⟨none, r, ?_, .inl ⟨rfl, hwait, htracks⟩⟩
    rw [RedisContext.redisGetReplyFromReader, hx]
    rfl
  | @returns r p v hval htracks =>
    refine ⟨some p, r, ?_, .inr ⟨p, v, rfl, hval, htracks⟩⟩
    rw [RedisContext.redisGetReplyFromReader, hx]
    rfl
  | @fails r herr htracks =>
    have hnone := (htracks.of_wires hw).1
    rw [hnone] at herr
    exact absurd herr (by simp)

/-- What a `read` takes from the network. -/
def took : ReadResult → Str
  | .error _ _ => []
  | .closed => []
  | .bytes buf => buf

/-- **`redisBufferRead`** feeds the reader what `read` takes, or there is an error. -/
theorem redisBufferRead_eq {nread : ReadResult} (h : Tracks c.reader fed outs es rs)
    (hw : Wires 0 vs (fed ++ w))
    (hbytes : ∀ buf, nread = .bytes buf →
      c.err = none ∧ c.reader.buf.length + buf.length < 2 ^ 31) :
    (∃ reader, c.redisBufferRead nread = (.ok, { c with reader := reader }) ∧
      Tracks reader (fed ++ took nread) outs es rs) ∨
    ∃ err, c.redisBufferRead nread = (.err, { c with err := err }) ∧ err.isSome ∧
      took nread = [] := by
  cases nread with
  | error errno strerror =>
    rw [took, List.append_nil, RedisContext.redisBufferRead]
    by_cases herr : c.err.isSome
    · exact .inr ⟨c.err, if_pos herr, herr, rfl⟩
    · rw [if_neg herr]
      unfold RedisContext.retry
      split_ifs
      · exact .inl ⟨c.reader, rfl, h⟩
      · exact .inr ⟨_, rfl, rfl, rfl⟩
  | closed =>
    rw [took, List.append_nil, RedisContext.redisBufferRead]
    by_cases herr : c.err.isSome
    · exact .inr ⟨c.err, if_pos herr, herr, rfl⟩
    · exact .inr ⟨_, if_neg herr, rfl, rfl⟩
  | bytes buf =>
    obtain ⟨herr, hfit⟩ := hbytes buf rfl
    have hnone := (h.of_wires hw).1
    rcases h.feed hfit with ⟨reader, hfeed, htracks⟩ | ⟨-, hsome⟩
    · refine .inl ⟨reader, ?_, htracks⟩
      rw [RedisContext.redisBufferRead, if_neg (by simp [herr])]
      simp only [hfeed]
    · rw [hnone] at hsome
      exact absurd hsome (by simp)

/-- **What `write` takes** is the beginning of the output buffer. -/
theorem writeSome_written (hroom : c.obuf.length < 2 ^ 31) (hn : n ≤ c.obuf.length) :
    c.writeSome (.written n) = (.ok, { c with obuf := c.obuf.drop n }) := by
  have hint : ∀ k : ℕ, k < 2 ^ 31 → toInt k = k := fun k hk => by
    rw [toInt, Int.bmod_eq_of_le] <;> omega
  rw [RedisContext.writeSome, hint n (by omega), hint _ hroom]
  split_ifs with hpos hall
  · rw [List.drop_of_length_le (by omega)]
  · rw [← hint n (by omega), sdsrange_drop hn hroom]
  · obtain rfl : n = 0 := by omega
    rfl

/-- What a `write` puts on the network. -/
def sent (c : RedisContext) : WriteResult → Str
  | .written n => c.offered.take n
  | .error _ _ => []

/-- **`redisBufferWrite`** takes from the output buffer what is written, or there is an error. -/
theorem redisBufferWrite_eq {nwritten : WriteResult} (hroom : c.obuf.length < 2 ^ 31)
    (hn : ∀ n, nwritten = .written n → n ≤ c.offered.length) :
    (∃ wdone obuf, c.redisBufferWrite nwritten = (.ok, wdone, { c with obuf := obuf }) ∧
      c.err = none ∧ c.obuf = sent c nwritten ++ obuf ∧ (wdone = true → obuf = [])) ∨
    ∃ err, c.redisBufferWrite nwritten = (.err, false, { c with err := err }) ∧ err.isSome ∧
      sent c nwritten = [] := by
  by_cases herr : c.err.isSome
  · refine .inr ⟨c.err, if_pos herr, herr, ?_⟩
    cases nwritten <;> simp [sent, RedisContext.offered, herr]
  have hnone : c.err = none := by simpa using herr
  have hdone : ∀ obuf : Str, decide (obuf.length = 0) = true → obuf = [] := fun obuf h =>
    List.eq_nil_of_length_eq_zero (of_decide_eq_true h)
  rw [RedisContext.redisBufferWrite, if_neg herr]
  by_cases hempty : c.obuf.length > 0
  · rw [if_pos hempty]
    cases nwritten with
    | written n =>
      have hle : n ≤ c.obuf.length := by simpa [RedisContext.offered, herr] using hn n rfl
      rw [writeSome_written hroom hle]
      exact .inl ⟨_, _, rfl, hnone, by simp [sent, RedisContext.offered, herr], hdone _⟩
    | error errno strerror =>
      rw [RedisContext.writeSome, RedisContext.retry]
      split_ifs
      · exact .inl ⟨_, c.obuf, rfl, hnone, by simp [sent], hdone _⟩
      · exact .inr ⟨_, rfl, rfl, rfl⟩
  · have hnil : c.obuf = [] := List.eq_nil_of_length_eq_zero (by omega)
    rw [if_neg hempty]
    refine .inl ⟨_, c.obuf, rfl, hnone, ?_, hdone _⟩
    cases nwritten <;> simp [sent, RedisContext.offered, hnil]

/-- **A round of the loop that writes**: it goes on, or to the loop that reads when the buffer is
empty, or there is an error. -/
theorem Client.write_eq {k : Client} {nwritten : WriteResult} (hphase : k.phase = .writing)
    (hroom : k.ctx.obuf.length < 2 ^ 31)
    (hn : ∀ n, nwritten = .written n → n ≤ k.ctx.offered.length) :
    k.ctx.obuf = sent k.ctx nwritten ++ (k.write nwritten).ctx.obuf ∧
      (k.write nwritten).ctx.reader = k.ctx.reader ∧
      (k.write nwritten).ctx.block = k.ctx.block ∧
      ((k.write nwritten).phase ≠ .idle ∧ k.ctx.err = none ∧
        (k.write nwritten).ctx.err = none ∧
        ((k.write nwritten).phase = .reading → (k.write nwritten).ctx.obuf = []) ∨
      (k.write nwritten).phase = .idle ∧ (k.write nwritten).ctx.err.isSome ∧
        (k.write nwritten).last = some (.err, none)) := by
  rcases redisBufferWrite_eq hroom hn with
    ⟨wdone, obuf, hwrite, hnone, hsent, hdone⟩ | ⟨err, hwrite, herr, hsent⟩
  · rw [Client.write, hwrite]
    simp only [reduceCtorEq, if_false]
    split_ifs with hwdone
    · exact ⟨hsent, rfl, rfl, .inl ⟨by simp, hnone, hnone, fun _ => hdone hwdone⟩⟩
    · exact ⟨hsent, rfl, rfl, .inl ⟨by simp [hphase], hnone, hnone,
        fun h => absurd h (by simp [hphase])⟩⟩
  · rw [Client.write, hwrite, hsent]
    exact ⟨rfl, rfl, rfl, .inr ⟨rfl, herr, rfl⟩⟩

/-- **What a call that looks for a reply comes to.** -/
inductive Looked (c : RedisContext) (fed : Str) (outs : List Reply) (es : List ℕ) (rs : List Reply)
    (k : Client) : Prop
  /-- The client goes on to wait. -/
  | waits : k.phase ≠ .idle → k.ctx.err = c.err → Waits k.ctx.reader fed outs →
      Tracks k.ctx.reader fed outs es rs → Looked c fed outs es rs k
  /-- There is no reply, and in a blocking context there has been an error. -/
  | fails : k.phase = .idle → k.last.bind Prod.snd = none → (c.block = true → k.ctx.err.isSome) →
      Waits k.ctx.reader fed outs → Tracks k.ctx.reader fed outs es rs → Looked c fed outs es rs k
  /-- There is a reply. -/
  | returns {p : ℕ} {v : Reply} : k.phase = .idle → k.ctx.err = c.err →
      k.last.bind Prod.snd = some p → k.ctx.reader.heap.reply p = some v →
      Tracks k.ctx.reader fed (outs ++ [v]) (es ++ [p]) (rs ++ [v]) → Looked c fed outs es rs k

/-- **The begin of `redisGetReply`**. -/
theorem Client.getReply_eq {k : Client} (h : Tracks k.ctx.reader fed outs es rs)
    (hw : Wires 0 vs (fed ++ w)) :
    ∃ k', k.getReply = .ok k' ∧ k'.ctx.obuf = k.ctx.obuf ∧ k'.ctx.block = k.ctx.block ∧
      k'.phase ≠ .reading ∧ Looked k.ctx fed outs es rs k' := by
  obtain ⟨aux, reader, hlook, hcase⟩ := redisGetReplyFromReader_eq (c := k.ctx) h hw
  rw [Client.getReply, hlook]
  simp only [reduceCtorEq, if_false, ok_bind]
  rcases hcase with ⟨rfl, hwait, htracks⟩ | ⟨p, v, rfl, hval, htracks⟩
  · by_cases hblock : k.ctx.block = true
    · exact ⟨_, if_pos ⟨rfl, hblock⟩, rfl, rfl, by simp, .waits (by simp) rfl hwait htracks⟩
    · exact ⟨_, if_neg fun h => hblock h.2, rfl, rfl, by simp [Client.ret],
        .fails rfl rfl (fun h => absurd h hblock) hwait htracks⟩
  · exact ⟨_, if_neg fun h => absurd h.1 (by simp), rfl, rfl, by simp [Client.ret],
      .returns rfl rfl rfl hval htracks⟩

/-- **A round of the loop that reads.** -/
theorem Client.read_eq {k : Client} {nread : ReadResult} (h : Tracks k.ctx.reader fed outs es rs)
    (hw : Wires 0 vs (fed ++ (took nread ++ w))) (hphase : k.phase = .reading)
    (hwait : Waits k.ctx.reader fed outs)
    (hbytes : ∀ buf, nread = .bytes buf →
      k.ctx.err = none ∧ k.ctx.reader.buf.length + buf.length < 2 ^ 31) :
    ∃ k', k.read nread = .ok k' ∧ k'.ctx.obuf = k.ctx.obuf ∧ k'.ctx.block = k.ctx.block ∧
      Looked k.ctx (fed ++ took nread) outs es rs k' := by
  rcases redisBufferRead_eq h hw hbytes with
    ⟨reader, hread, htracks⟩ | ⟨err, hread, herr, htook⟩
  · rw [← List.append_assoc] at hw
    obtain ⟨aux, reader', hlook, hcase⟩ := redisGetReplyFromReader_eq
      (c := { k.ctx with reader := reader }) htracks hw
    rw [Client.read, hread]
    simp only [reduceCtorEq, if_false, hlook, ok_bind]
    rcases hcase with ⟨rfl, hwait', htracks'⟩ | ⟨p, v, rfl, hval, htracks'⟩
    · exact ⟨_, if_pos rfl, rfl, rfl, .waits (by simp [hphase]) rfl hwait' htracks'⟩
    · exact ⟨_, if_neg (by simp), rfl, rfl, .returns rfl rfl rfl hval htracks'⟩
  · rw [Client.read, hread, htook, List.append_nil]
    exact ⟨_, if_pos rfl, rfl, rfl, .fails rfl rfl (fun _ => herr) hwait h⟩

/-! ### What holds in every run -/

namespace System

/-- **The invariant**: the commands up to some have been answered, the texts of the others are on
their way or in the output buffer, and the reader has been fed the beginning of the answers. -/
structure Inv (srv : Server σ) (s₀ : σ) (s : System σ) (fed : Str) (outs rs : List Reply)
    (answered pending : List (List Str)) : Prop where
  cmds : s.cmds = answered ++ pending
  small : ∀ argv ∈ s.cmds, (protocol argv).length < 2 ^ 31
  server : s.server = srv.after s₀ answered
  up : pending.flatMap protocol = s.toServer ++ s.client.ctx.obuf
  down : Wires 0 (srv.answers s₀ answered) (fed ++ s.toClient)
  tracks : Tracks s.client.ctx.reader fed outs s.held rs
  returned : s.returned = outs.map some
  waits : s.client.phase ≠ .idle → Waits s.client.ctx.reader fed outs
  flushed : s.client.phase = .reading → s.client.ctx.obuf = []
  room : s.client.ctx.obuf.length < 2 ^ 31
  block : s.client.ctx.block = true

/-- The system is in order, for some commands and replies. -/
def Ordered (srv : Server σ) (s₀ : σ) (s : System σ) : Prop :=
  ∃ fed outs rs answered pending, Inv srv s₀ s fed outs rs answered pending

theorem ordered_start : Ordered srv s₀ (start s₀) := by
  refine ⟨[], [], [], [], [], rfl, ?_, rfl, rfl, .nil, tracks_start, rfl, ?_, ?_, ?_, rfl⟩
  · simp [start]
  · exact fun h => absurd rfl h
  · exact fun _ => rfl
  · simp [start, RedisContext.connected]

/-- The client has looked for a reply. -/
theorem Inv.update (hs : Inv srv s₀ s fed outs rs answered pending) {k : Client} {fed' w : Str}
    (hobuf : k.ctx.obuf = s.client.ctx.obuf) (hblock : k.ctx.block = s.client.ctx.block)
    (hlooked : Looked s.client.ctx fed' outs s.held rs k)
    (hdown : Wires 0 (srv.answers s₀ answered) (fed' ++ w))
    (hflushed : k.phase = .reading → s.client.ctx.obuf = []) :
    ∃ outs' rs', Inv srv s₀ { s.update k with toClient := w } fed' outs' rs' answered pending := by
  have hup : pending.flatMap protocol = s.toServer ++ k.ctx.obuf := hobuf.symm ▸ hs.up
  have hroom : k.ctx.obuf.length < 2 ^ 31 := hobuf.symm ▸ hs.room
  have hflushed' : k.phase = .reading → k.ctx.obuf = [] := fun h => hobuf.trans (hflushed h)
  have hblock' := hblock.trans hs.block
  cases hlooked with
  | waits hphase _ hwait htracks =>
    refine ⟨outs, rs, hs.cmds, hs.small, hs.server, hup, hdown, ?_, ?_, fun _ => hwait, hflushed',
      hroom, hblock'⟩
    · simpa [System.update, hphase] using htracks
    · simpa [System.update, hphase] using hs.returned
  | fails hphase hlast _ hwait htracks =>
    refine ⟨outs, rs, hs.cmds, hs.small, hs.server, hup, hdown, ?_, ?_, fun _ => hwait, hflushed',
      hroom, hblock'⟩
    · simpa [System.update, hphase, hlast] using htracks
    · simpa [System.update, hphase, hlast] using hs.returned
  | @returns p v hphase _ hlast hval htracks =>
    refine ⟨outs ++ [v], rs ++ [v], hs.cmds, hs.small, hs.server, hup, hdown, ?_, ?_,
      fun hne => absurd hphase hne, hflushed', hroom, hblock'⟩
    · simpa [System.update, hphase, hlast] using htracks
    · simp [System.update, hphase, hlast, hval, hs.returned]

/-- What is appended goes into the output buffer. -/
theorem Inv.append (hs : Inv srv s₀ s fed outs rs answered pending)
    (hidle : s.client.phase = .idle) {argv : Option (List Str)}
    (hlen : ∀ a, argv = some a → s.client.ctx.obuf.length + (protocol a).length < 2 ^ 31)
    (hreader : c.reader = s.client.ctx.reader) (hblock : c.block = s.client.ctx.block)
    (hobuf : c.obuf = s.client.ctx.obuf ++ argv.toList.flatMap protocol) :
    Inv srv s₀ { s with client := { s.client with ctx := c }, cmds := s.cmds ++ argv.toList }
      fed outs rs answered (pending ++ argv.toList) := by
  refine ⟨?_, ?_, hs.server, ?_, hs.down, hreader.symm ▸ hs.tracks, hs.returned,
    fun hne => absurd hidle hne, ?_, ?_, hblock.trans hs.block⟩
  · rw [hs.cmds, List.append_assoc]
  · intro a ha
    rcases List.mem_append.mp ha with ha | ha
    · exact hs.small a ha
    · have hfit := hlen a (Option.mem_toList.mp ha)
      omega
  · rw [List.flatMap_append, hs.up, List.append_assoc, ← hobuf]
  · exact fun hreading => absurd (hidle.symm.trans hreading) (by decide)
  · dsimp only
    rw [hobuf]
    cases argv with
    | none => simpa using hs.room
    | some a => simpa using hlen a rfl

/-- **A command is answered.** -/
theorem Inv.serve (hs : Inv srv s₀ s fed outs rs answered pending)
    (hin : protocol argv <+: s.toServer) :
    ∃ pending', Inv srv s₀ { s with
      server := (srv.serve s.server argv).1
      toServer := s.toServer.drop (protocol argv).length
      toClient := s.toClient ++ (srv.serve s.server argv).2.2 } fed outs rs (answered ++ [argv])
      pending' := by
  obtain ⟨t, ht⟩ := hin
  have hup := hs.up
  rw [← ht] at hup
  cases pending with
  | nil => simp [protocol] at hup
  | cons a pending =>
    rw [List.flatMap_cons, List.append_assoc] at hup
    obtain ⟨rfl, hrest⟩ := protocol_append_inj hup
    refine ⟨pending, ?_, hs.small, ?_, ?_, ?_, hs.tracks, hs.returned, hs.waits, hs.flushed,
      hs.room, hs.block⟩
    · rw [List.append_assoc]
      exact hs.cmds
    · rw [Server.after, List.foldl_append, hs.server]
      rfl
    · rw [hrest, ← ht, List.drop_left]
    · rw [Server.answers_append, ← List.append_assoc, hs.server]
      exact hs.down.snoc (srv.wire _ a)

/-- What is written goes to the server. -/
theorem Inv.write (hs : Inv srv s₀ s fed outs rs answered pending) (nwritten : WriteResult)
    (hphase : s.client.phase = .writing)
    (hn : ∀ n, nwritten = .written n → n ≤ s.client.ctx.offered.length) :
    Inv srv s₀ { s with
      client := s.client.write nwritten
      toServer := s.toServer ++ sent s.client.ctx nwritten } fed outs rs answered pending := by
  obtain ⟨hobuf, hreader, hblock, hcase⟩ := Client.write_eq hphase hs.room hn
  have hroom := hs.room
  rw [hobuf, List.length_append] at hroom
  have hreading : (s.client.write nwritten).phase = .reading →
      (s.client.write nwritten).ctx.obuf = [] := fun h => by
    rcases hcase with ⟨-, -, -, hflushed⟩ | ⟨hidle, -⟩
    · exact hflushed h
    · exact absurd (hidle.symm.trans h) (by decide)
  refine ⟨hs.cmds, hs.small, hs.server, ?_, hs.down, hreader.symm ▸ hs.tracks, hs.returned,
    fun _ => ?_, hreading, by dsimp only; omega, hblock.trans hs.block⟩
  · rw [List.append_assoc, ← hobuf]
    exact hs.up
  · change Waits (s.client.write nwritten).ctx.reader fed outs
    rw [hreader]
    exact hs.waits (by simp [hphase])

/-- What is read is fed to the reader. -/
theorem Inv.read {t : Str} (hs : Inv srv s₀ s fed outs rs answered pending) (nread : ReadResult)
    (hphase : s.client.phase = .reading) (ht : s.toClient = took nread ++ t)
    (hbytes : ∀ buf, nread = .bytes buf → s.client.ctx.err = none ∧
      s.client.ctx.reader.buf.length + buf.length < 2 ^ 31) :
    ∃ k, s.client.read nread = .ok k ∧ ∃ outs' rs',
      Inv srv s₀ { s.update k with toClient := t } (fed ++ took nread) outs' rs' answered
        pending := by
  have hdown := hs.down
  rw [ht] at hdown
  obtain ⟨k, hread, hobuf, hblock, hlooked⟩ :=
    Client.read_eq hs.tracks hdown hphase (hs.waits (by simp [hphase])) hbytes
  rw [← List.append_assoc] at hdown
  exact ⟨k, hread, hs.update hobuf hblock hlooked hdown fun _ => hs.flushed hphase⟩

/-- A reply is freed. -/
theorem Inv.freeReply {i p : ℕ} (hs : Inv srv s₀ s fed outs rs answered pending)
    (hi : s.held[i]? = some p) :
    ∃ heap rs', s.client.ctx.reader.heap.freeReplyObject s.client.ctx.reader.heap.next (some p) =
        .ok heap ∧
      Inv srv s₀ { s with
        client := { s.client with ctx := { s.client.ctx with
          reader := { s.client.ctx.reader with heap := heap } } }
        held := s.held.eraseIdx i } fed outs rs' answered pending := by
  obtain ⟨hlt, hp⟩ := List.getElem?_eq_some_iff.mp hi
  obtain ⟨es₁, q, es₂, hheld, hlen⟩ := exists_cut_at hlt
  obtain rfl : p = q := by
    rw [hheld, List.getElem?_append_right hlen.le, hlen, Nat.sub_self] at hi
    exact (Option.some.inj hi).symm
  have htracks := hs.tracks
  rw [hheld] at htracks
  obtain ⟨heap, rs₁, v, rs₂, hfree, -, -, htracks'⟩ := htracks.freeReply
  have herase : s.held.eraseIdx i = es₁ ++ es₂ := by
    rw [hheld, ← hlen, List.eraseIdx_append_of_length_le le_rfl, Nat.sub_self]
    rfl
  refine ⟨heap, rs₁ ++ rs₂, hfree, hs.cmds, hs.small, hs.server, hs.up, hs.down, ?_, hs.returned,
    hs.waits, hs.flushed, hs.room, hs.block⟩
  dsimp only
  rw [herase]
  exact htracks'

/-! ### What a step is -/

/-- A round of the loop that writes. -/
theorem step_write {nwritten : WriteResult}
    (h : s.step srv vprintf (.write nwritten) = some s') :
    s.client.phase = .writing ∧
      (∀ n, nwritten = .written n → n ≤ s.client.ctx.offered.length) ∧
      s' = { s with
        client := s.client.write nwritten
        toServer := s.toServer ++ sent s.client.ctx nwritten } := by
  cases nwritten with
  | error errno strerror =>
    simp only [System.step] at h
    split_ifs at h with hphase
    exact ⟨hphase, fun n hn => absurd hn (by simp), by simpa [sent] using (Option.some.inj h).symm⟩
  | written n =>
    simp only [System.step] at h
    split_ifs at h with hphase
    refine ⟨hphase.1, fun m hm => ?_, (Option.some.inj h).symm⟩
    obtain rfl := WriteResult.written.inj hm
    exact hphase.2

/-- A round of the loop that reads. -/
theorem step_read {nread : ReadResult} (h : s.step srv vprintf (.read nread) = some s') :
    s.client.phase = .reading ∧ (∀ buf, nread = .bytes buf → s.client.ctx.err = none) ∧
      ∃ k t, s.client.read nread = .ok k ∧ s.toClient = took nread ++ t ∧
        s' = { s.update k with toClient := t } := by
  cases nread with
  | bytes buf =>
    simp only [System.step] at h
    split_ifs at h with hphase
    obtain ⟨hphase, herr, -, -, t, ht⟩ := hphase
    cases hread : s.client.read (.bytes buf) with
    | error f => simp [hread] at h
    | ok k =>
      have hdrop : s.toClient.drop buf.length = t := by rw [← ht, List.drop_left]
      simp only [hread, hdrop] at h
      exact ⟨hphase, fun b _ => Option.isNone_iff_eq_none.mp herr, k, t, rfl, ht.symm,
        (Option.some.inj h).symm⟩
  | error errno strerror =>
    simp only [System.step] at h
    split_ifs at h with hphase
    cases hread : s.client.read (.error errno strerror) with
    | error f => simp [hread] at h
    | ok k =>
      simp only [hread] at h
      exact ⟨hphase, fun b hb => absurd hb (by simp), k, s.toClient, rfl, rfl,
        (Option.some.inj h).symm⟩
  | closed =>
    simp only [System.step] at h
    split_ifs at h with hphase
    cases hread : s.client.read .closed with
    | error f => simp [hread] at h
    | ok k =>
      simp only [hread] at h
      exact ⟨hphase, fun b hb => absurd hb (by simp), k, s.toClient, rfl, rfl,
        (Option.some.inj h).symm⟩

/-- The server answers. -/
theorem step_serve (h : s.step srv vprintf (.serve argv) = some s') :
    protocol argv <+: s.toServer ∧ s' = { s with
      server := (srv.serve s.server argv).1
      toServer := s.toServer.drop (protocol argv).length
      toClient := s.toClient ++ (srv.serve s.server argv).2.2 } := by
  simp only [System.step] at h
  split_ifs at h with hin
  exact ⟨hin, (Option.some.inj h).symm⟩

/-- A command is appended, or the format is not valid. -/
theorem step_append {format : Str} {ap : List (VaArg ν)}
    (h : s.step srv vprintf (.append format ap) = some s') :
    s.client.phase = .idle ∧ ∃ argv ctx, formatArgv vprintf format ap = .ok argv ∧
      ctx.reader = s.client.ctx.reader ∧ ctx.block = s.client.ctx.block ∧
      ctx.obuf = s.client.ctx.obuf ++ argv.toList.flatMap protocol ∧
      (argv = none → ctx.err.isSome) ∧ (argv ≠ none → ctx.err = s.client.ctx.err) ∧
      s' = { s with client := { s.client with ctx := ctx }, cmds := s.cmds ++ argv.toList } := by
  simp only [System.step] at h
  split_ifs at h with hidle
  rcases hargv : formatArgv vprintf format ap with f | _ | argv
  · simp [hargv] at h
  · simp only [hargv, redisvAppendCommand_none hargv] at h
    exact ⟨hidle, none, s.client.ctx.setError .other "Invalid format string".toList, rfl, rfl, rfl,
      by simp [RedisContext.setError], fun _ => rfl, fun h => absurd rfl h,
      (Option.some.inj h).symm⟩
  · simp only [hargv, redisvAppendCommand_some hargv] at h
    exact ⟨hidle, some argv, s.client.ctx.redisAppendCommand' (protocol argv), rfl, rfl, rfl,
      by simp [RedisContext.redisAppendCommand'], fun h => absurd h (by simp), fun _ => rfl,
      (Option.some.inj h).symm⟩

/-- A call of `redisGetReply` begins. -/
theorem step_getReply (h : s.step srv vprintf .getReply = some s') :
    s.client.phase = .idle ∧ ∃ k, s.client.getReply = .ok k ∧ s' = s.update k := by
  simp only [System.step] at h
  split_ifs at h with hidle
  cases hget : s.client.getReply with
  | error f => simp [hget] at h
  | ok k =>
    simp only [hget] at h
    exact ⟨hidle, k, rfl, (Option.some.inj h).symm⟩

/-- A reply is freed. -/
theorem step_freeReply {i : ℕ} (h : s.step srv vprintf (.freeReply i) = some s') :
    ∃ p heap, s.held[i]? = some p ∧ s.client.ctx.reader.heap.freeReplyObject
        s.client.ctx.reader.heap.next (some p) = .ok heap ∧
      s' = { s with
        client := { s.client with ctx := { s.client.ctx with
          reader := { s.client.ctx.reader with heap := heap } } }
        held := s.held.eraseIdx i } := by
  simp only [System.step] at h
  cases hi : s.held[i]? with
  | none => simp [hi] at h
  | some p =>
    cases hfree : s.client.ctx.reader.heap.freeReplyObject s.client.ctx.reader.heap.next
        (some p) with
    | error f => simp [hi, hfree] at h
    | ok heap =>
      simp only [hi, hfree] at h
      exact ⟨p, heap, rfl, hfree, (Option.some.inj h).symm⟩

/-- **The invariant is kept** by every step that fits. -/
theorem Ordered.step {e : Event ν} (hs : Ordered srv s₀ s) (hfit : s.Fits vprintf e)
    (hstep : s.step srv vprintf e = some s') : Ordered srv s₀ s' := by
  obtain ⟨fed, outs, rs, answered, pending, hs⟩ := hs
  cases e with
  | append format ap =>
    obtain ⟨hidle, argv, ctx, hargv, hreader, hblock, hobuf, -, -, rfl⟩ := step_append hstep
    refine ⟨_, _, _, _, _, hs.append hidle (fun a ha => ?_) hreader hblock hobuf⟩
    obtain rfl := ha
    simpa [Fits, cmdLength, hargv] using hfit
  | getReply =>
    obtain ⟨-, k, hk, rfl⟩ := step_getReply hstep
    obtain ⟨k', hget, hobuf, hblock, hne, hlooked⟩ := Client.getReply_eq hs.tracks hs.down
    obtain rfl := Except.ok.inj (hget.symm.trans hk)
    obtain ⟨outs', rs', hs'⟩ := hs.update hobuf hblock hlooked hs.down fun h => absurd h hne
    exact ⟨_, _, _, _, _, hs'⟩
  | write nwritten =>
    obtain ⟨hphase, hn, rfl⟩ := step_write hstep
    exact ⟨_, _, _, _, _, hs.write nwritten hphase hn⟩
  | read nread =>
    obtain ⟨hphase, herr, k, t, hk, ht, rfl⟩ := step_read hstep
    obtain ⟨k', hread, outs', rs', hs'⟩ := hs.read nread hphase ht fun buf hbuf => by
      subst hbuf
      exact ⟨herr buf rfl, hfit⟩
    obtain rfl := Except.ok.inj (hread.symm.trans hk)
    exact ⟨_, _, _, _, _, hs'⟩
  | serve argv =>
    obtain ⟨hin, rfl⟩ := step_serve hstep
    obtain ⟨pending', hs'⟩ := hs.serve hin
    exact ⟨_, _, _, _, _, hs'⟩
  | freeReply i =>
    obtain ⟨p, heap, hi, hfree, rfl⟩ := step_freeReply hstep
    obtain ⟨heap', rs', hfree', hs'⟩ := hs.freeReply hi
    obtain rfl := Except.ok.inj (hfree'.symm.trans hfree)
    exact ⟨_, _, _, _, _, hs'⟩

theorem ordered_of_run {es : List (Event ν)}
    (h : Runs.Run (steps srv vprintf) (start s₀) es s) : Ordered srv s₀ s :=
  h.invariant ordered_start fun _ _ _ hs hstep => hs.step hstep.1 hstep.2

/-- A server that answers with the last digit of the number of the command. -/
def counting : Server ℕ where
  serve n _ := (n + 1, ⟨.integer, (n % 10 : ℕ), [], []⟩, ':' :: header (n % 10 : ℕ))
  wire n _ := .integer (by omega) (by omega)

/-- Two commands, which are written in two pieces, and answers that are read in two pieces. -/
def twoCommands : List (Event Unit) :=
  [.append "PING".toList [], .append "GET %s".toList [.text "k".toList], .getReply,
    .write (.written 20), .serve ["PING".toList], .write (.error .interrupted []),
    .write (.written 14), .read (.bytes [':', '0', '\r']), .serve ["GET".toList, "k".toList],
    .read (.bytes ['\n', ':', '1', '\r', '\n']), .getReply]

/-- **Replies come in the order of the commands**: what has been returned are the answers to the
first of the commands that have been appended, and the reader has not failed. -/
theorem run_returned {es : List (Event ν)}
    (h : Runs.Run (steps srv vprintf) (start s₀) es s) :
    s.client.ctx.reader.err = none ∧ s.returned <+: (srv.answers s₀ s.cmds).map some := by
  obtain ⟨fed, outs, rs, answered, pending, hs⟩ := ordered_of_run h
  obtain ⟨herr, hbegins⟩ := hs.tracks.of_wires hs.down
  refine ⟨herr, ?_⟩
  rw [hs.returned, hs.cmds, Server.answers_append]
  exact (hbegins.trans (List.prefix_append _ _)).map some

theorem run_returned_two : ∃ s : System ℕ,
    Runs.Run (steps counting fun s (_ : Unit) => s) (start 0) twoCommands s ∧
      [some ⟨.integer, 0, [], []⟩, some ⟨.integer, 1, [], []⟩] <+:
        (counting.answers 0 s.cmds).map some := by
  obtain ⟨s, hrun, hret⟩ : ∃ s : System ℕ,
      Runs.Run (steps counting fun s (_ : Unit) => s) (start 0) twoCommands s ∧
        s.returned = [some ⟨.integer, 0, [], []⟩, some ⟨.integer, 1, [], []⟩] :=
    Runs.exists_run_guard rfl
  exact ⟨s, hrun, hret ▸ (run_returned hrun).2⟩

/-- **The client does not wait in vain**: while it waits, the server has a command to answer, or
an answer is on its way, or all commands have been answered and all answers returned. -/
theorem run_waiting {es : List (Event ν)} (h : Runs.Run (steps srv vprintf) (start s₀) es s)
    (hreading : s.client.phase = .reading) :
    (∃ argv, protocol argv <+: s.toServer) ∨ s.toClient ≠ [] ∨
      s.returned = (srv.answers s₀ s.cmds).map some := by
  obtain ⟨fed, outs, rs, answered, pending, hs⟩ := ordered_of_run h
  have hup := hs.up
  rw [hs.flushed hreading, List.append_nil] at hup
  cases pending with
  | cons argv pending =>
    refine .inl ⟨argv, ?_⟩
    rw [← hup, List.flatMap_cons]
    exact List.prefix_append _ _
  | nil =>
    refine .inr (or_iff_not_imp_left.mpr fun hnil => ?_)
    have hdown := hs.down
    rw [not_not.mp hnil, List.append_nil] at hdown
    have hle := (hs.waits (by simp [hreading])).begins hdown (List.prefix_refl _)
    have hge := (hs.tracks.of_wires (w := []) (by rwa [List.append_nil])).2
    rw [hs.returned, hs.cmds, List.append_nil, hge.eq_of_length_le hle.length_le]

/-- The client waits for the end of the first answer. -/
theorem run_waiting_two : ∃ s : System ℕ,
    Runs.Run (steps counting fun s (_ : Unit) => s) (start 0) (twoCommands.take 8) s ∧
      ((∃ argv, protocol argv <+: s.toServer) ∨ s.toClient ≠ [] ∨
        s.returned = (counting.answers 0 s.cmds).map some) := by
  obtain ⟨s, hrun, hphase⟩ : ∃ s : System ℕ,
      Runs.Run (steps counting fun s (_ : Unit) => s) (start 0) (twoCommands.take 8) s ∧
        s.client.phase = .reading :=
    Runs.exists_run_guard rfl
  exact ⟨s, hrun, run_waiting hrun hphase⟩

/-- **The client does not fault**: it can ask for a reply where there is no call, the call can go
on with whatever the network delivers, and each reply that it holds can be freed. -/
theorem run_client {es : List (Event ν)} (h : Runs.Run (steps srv vprintf) (start s₀) es s) :
    (∃ k, s.client.getReply = .ok k) ∧
      (s.client.phase = .reading → s.client.ctx.err = none → ∀ buf, buf <+: s.toClient →
        s.client.ctx.reader.buf.length + buf.length < 2 ^ 31 →
        ∃ k, s.client.read (.bytes buf) = .ok k) ∧
      ∀ (i p : ℕ), s.held[i]? = some p → ∃ heap, s.client.ctx.reader.heap.freeReplyObject
        s.client.ctx.reader.heap.next (some p) = .ok heap := by
  obtain ⟨fed, outs, rs, answered, pending, hs⟩ := ordered_of_run h
  refine ⟨?_, fun hphase herr buf hbuf hfit => ?_, fun i p hi => ?_⟩
  · obtain ⟨k, hget, -⟩ := Client.getReply_eq hs.tracks hs.down
    exact ⟨k, hget⟩
  · obtain ⟨t, ht⟩ := hbuf
    obtain ⟨k, hread, -⟩ := hs.read (.bytes buf) hphase ht.symm fun b hb => by
      obtain rfl := ReadResult.bytes.inj hb
      exact ⟨herr, hfit⟩
    exact ⟨k, hread⟩
  · obtain ⟨heap, rs', hfree, -⟩ := hs.freeReply hi
    exact ⟨heap, hfree⟩

end System

end

end Hiredis

end BackendStudy
