import BackendStudy.Hiredis.Pipeline
import BackendStudy.Redis.Connection

/-!
# `redisCommand` over a network is `redisCommand` of a connection

The methods of `RedisConn` call `redisCommand`, which appends a command and, in a blocking context,
waits for a reply. What such calls return over the system of client, server and network, whatever
the order of its steps (`BackendStudy.Hiredis.Commands`), is what they return in the model of a
connection that answers at once (`BackendStudy.Redis.Context.redisCommand`), where a command is
answered as the server answers it or, if the connection breaks, not at all
(`BackendStudy.Hiredis.Commands.refines`).
-/

namespace BackendStudy

namespace Hiredis

open Slots Redis Incremental

/-- What the client does in a call, the network and the server. -/
def Event.Network {ν : Type} : Event ν → Prop
  | .write _ | .read _ | .serve _ => True
  | .append _ _ | .getReply | .freeReply _ => False

/-- What `redisGetReply` has returned last. -/
def System.result {σ : Type} (s : System σ) : Option Reply :=
  (s.client.last.bind Prod.snd).bind s.client.ctx.reader.heap.reply

section

variable {σ : Type} (srv : Server σ) {ν : Type} (vprintf : Str → ν → Str) (s₀ : σ)

/-- **Calls of `redisCommand`**, one after another, with what they return. Between them replies are
freed, and the server may go on. -/
inductive Commands : List (Str × List (VaArg ν) × Option Reply) → System σ → Prop
  /-- There has been no call. -/
  | nil : Commands [] (.start s₀)
  /-- The format is not valid. -/
  | invalid {calls : List (Str × List (VaArg ν) × Option Reply)} {s s' : System σ} {format : Str}
      {ap : List (VaArg ν)} : Commands calls s → formatArgv vprintf format ap = .ok none →
      System.steps srv vprintf s (.append format ap) s' →
      Commands (calls ++ [(format, ap, none)]) s'
  /-- The command is appended, and there is a call of `redisGetReply`. -/
  | call {calls : List (Str × List (VaArg ν) × Option Reply)} {s s₁ s₂ s' : System σ}
      {format : Str} {ap : List (VaArg ν)} {argv : List Str} {es : List (Event ν)} :
      Commands calls s → formatArgv vprintf format ap = .ok (some argv) →
      System.steps srv vprintf s (.append format ap) s₁ →
      System.steps srv vprintf s₁ .getReply s₂ →
      Runs.Run (System.steps srv vprintf) s₂ es s' → (∀ e ∈ es, e.Network) →
      s'.client.phase = .idle → Commands (calls ++ [(format, ap, s'.result)]) s'
  /-- Something else happens. -/
  | other {calls : List (Str × List (VaArg ν) × Option Reply)} {s s' : System σ} {e : Event ν} :
      Commands calls s → (∃ argv, e = .serve argv) ∨ (∃ i, e = .freeReply i) →
      System.steps srv vprintf s e s' → Commands calls s'

end

section

variable {σ : Type} {srv : Server σ} {ν : Type} {vprintf : Str → ν → Str} {s₀ : σ}
  {s t t' : System σ} {r : Reader} {fed w : Str} {outs rs vs : List Reply} {es : List ℕ}
  {answered pending cmds : List (List Str)} {argv : List Str} {returned : List (Option Reply)}
  {err : Option (ErrType × Str)}

/-! ### Where all has been returned -/

/-- Between two replies the machine has read nothing that is not text of a reply. -/
theorem reads_start_nil {u : Str} (h : Reads step .start u [] .start w) : u = w := by
  obtain ⟨b, p, q, rfl, hb, hp, hq⟩ := Hiredis.Reads.wires h
  cases hb
  cases hp
  obtain rfl : q = [] := hq
  rfl

/-- **Where all replies have been returned**, the machine waits. -/
theorem Tracks.waits_of_all (h : Tracks r fed vs es rs) (hw : Wires 0 vs (fed ++ w)) :
    Waits r fed vs := by
  have hall := reads_wires hw []
  rw [List.append_nil] at hall
  rcases h with ⟨m, hread, -⟩ | ⟨m, u, e, hread, hfail, -⟩
  · -- what has been read are the texts of all replies, and nothing else
    obtain ⟨b, p, q, hfed, hb, hp, hq⟩ := Hiredis.Reads.wires hread
    have hrest := reads_wires hb (p ++ (q ++ (r.unread ++ w)))
    have hsplit : b ++ (p ++ (q ++ (r.unread ++ w))) = fed ++ w := by
      rw [hfed]
      simp
    rw [hsplit] at hrest
    have hnil : p ++ (q ++ (r.unread ++ w)) = [] := by
      rcases hrest.comparable hall with ⟨d, hd, hreads⟩ | ⟨d, hd, hreads⟩
      · obtain rfl : d = [] := by simpa using hd
        exact reads_start_nil hreads
      · exact (hreads.of_wait rfl).2.2
    simp only [List.append_eq_nil_iff] at hnil
    obtain ⟨rfl, rfl, hunread, -⟩ := hnil
    rcases m with ⟨fs, _ | ty⟩
    · exact ⟨_, hread, by rw [hunread]; rfl⟩
    · obtain ⟨c, -, hc⟩ := hq
      exact absurd hc (List.cons_ne_nil _ _).symm
  · exact absurd hfail ((hread.of_whole steady_step hall rfl).2.1 e)

namespace System

/-! ### One call -/

/-- The reader has no reply that has not been returned. -/
def StillWaits (srv : Server σ) (s₀ : σ) (s : System σ) : Prop :=
  ∃ fed outs rs answered pending, Inv srv s₀ s fed outs rs answered pending ∧
    Waits s.client.ctx.reader fed outs

/-- **Where a call is**, of a context with this error, for these commands, when so much has been
returned before: it waits, it has returned a reply, or the connection is broken. -/
inductive Answering (srv : Server σ) (s₀ : σ) (err : Option (ErrType × Str))
    (returned : List (Option Reply)) (t : System σ) : Prop
  /-- The call waits, and it does not read after an error. -/
  | waits : t.client.phase ≠ .idle → t.client.ctx.err = err →
      (t.client.phase = .reading → err = none) → t.returned = returned →
      Answering srv s₀ err returned t
  /-- The call has returned a reply. -/
  | replied {v : Reply} : t.client.phase = .idle → t.client.ctx.err = none → err = none →
      t.returned = returned ++ [some v] → t.result = some v → Answering srv s₀ err returned t
  /-- The call has returned no reply, since there has been an error. -/
  | broken : t.client.phase = .idle → t.client.ctx.err.isSome → t.returned = returned →
      t.result = none → StillWaits srv s₀ t → Answering srv s₀ err returned t

theorem returned_update_of_none {k : Client}
    (h : k.phase ≠ .idle ∨ k.last.bind Prod.snd = none) : (s.update k).returned = s.returned := by
  have hnone : (if k.phase = .idle then k.last.bind Prod.snd else none) = none := by
    split_ifs with hidle
    · exact h.resolve_left (not_not.mpr hidle)
    · rfl
  simp [System.update, hnone]

/-- What a look for a reply makes of a call. -/
theorem Inv.answering (hs : Inv srv s₀ t fed outs rs answered pending) {k : Client} {fed' : Str}
    (hobuf : k.ctx.obuf = t.client.ctx.obuf) (hblock : k.ctx.block = t.client.ctx.block)
    (hlooked : Looked t.client.ctx fed' outs t.held rs k)
    (hdown : Wires 0 (srv.answers s₀ answered) (fed' ++ w))
    (hflushed : k.phase = .reading → t.client.ctx.obuf = [])
    (hreading : k.phase = .reading → t.client.ctx.err = none)
    (hnone : ∀ p v, k.last.bind Prod.snd = some p → k.ctx.reader.heap.reply p = some v →
      Tracks k.ctx.reader fed' (outs ++ [v]) (t.held ++ [p]) (rs ++ [v]) →
      t.client.ctx.err = none) :
    Answering srv s₀ t.client.ctx.err t.returned { t.update k with toClient := w } := by
  obtain ⟨outs', rs', hs'⟩ := hs.update hobuf hblock hlooked hdown hflushed
  cases hlooked with
  | waits hphase herr hwait htracks =>
    exact .waits hphase herr hreading (returned_update_of_none (.inl hphase))
  | fails hphase hlast herr hwait htracks =>
    have hret := returned_update_of_none (s := t) (k := k) (.inr hlast)
    refine .broken hphase (herr hs.block) hret ?_ ⟨_, outs', rs', _, _, hs', ?_⟩
    · simp [System.result, System.update, hlast]
    · have hsame : outs' = outs := List.map_injective_iff.mpr (Option.some_injective _)
        (hs'.returned.symm.trans (hret.trans hs.returned))
      rw [hsame]
      exact hwait
  | @returns p v hphase herr hlast hval htracks =>
    have he := hnone p v hlast hval htracks
    refine .replied (v := v) hphase (herr.trans he) he ?_ ?_
    · simp [System.update, hphase, hlast, hval]
    · simp [System.result, System.update, hlast, hval]

/-- The server may answer where the reader waits. -/
theorem StillWaits.serve (hs : StillWaits srv s₀ t) (hin : protocol argv <+: t.toServer) :
    StillWaits srv s₀ { t with
      server := (srv.serve t.server argv).1
      toServer := t.toServer.drop (protocol argv).length
      toClient := t.toClient ++ (srv.serve t.server argv).2.2 } := by
  obtain ⟨fed, outs, rs, answered, pending, hs, hwait⟩ := hs
  obtain ⟨pending', hs'⟩ := hs.serve hin
  exact ⟨_, _, _, _, _, hs', hwait⟩

/-- **A step of a call.** -/
theorem Answering.step {e : Event ν} (ht : Answering srv s₀ err returned t)
    (hord : Ordered srv s₀ t) (he : e.Network) (hfit : t.Fits vprintf e)
    (hstep : t.step srv vprintf e = some t') :
    Answering srv s₀ err returned t' ∧ t'.cmds = t.cmds := by
  obtain ⟨fed, outs, rs, answered, pending, hs⟩ := hord
  cases e with
  -- the network neither appends a command nor asks for a reply nor frees one
  | append _ _ => exact he.elim
  | getReply => exact he.elim
  | freeReply _ => exact he.elim
  | serve argv =>
    obtain ⟨hin, rfl⟩ := step_serve hstep
    refine ⟨?_, rfl⟩
    cases ht with
    | waits hphase herr hreading hret => exact .waits hphase herr hreading hret
    | replied hphase herr hnone hret hres => exact .replied hphase herr hnone hret hres
    | broken hphase herr hret hres hwait => exact .broken hphase herr hret hres (hwait.serve hin)
  | write nwritten =>
    obtain ⟨hphase, hn, rfl⟩ := step_write hstep
    refine ⟨?_, rfl⟩
    have hidle : ¬ t.client.phase = .idle := by simp [hphase]
    cases ht with
    -- after a reply or an error the client writes no more
    | replied h _ _ _ _ => exact absurd h hidle
    | broken h _ _ _ _ => exact absurd h hidle
    | waits _ herr _ hret =>
      have hs' := hs.write nwritten hphase hn
      obtain ⟨-, hreader, -, hcase⟩ := Client.write_eq hphase hs.room hn
      -- the buffer has been written, in part or as a whole, or the connection is lost
      rcases hcase with ⟨hne, hnone, herr', -⟩ | ⟨hidle', herr', hlast⟩
      · have herr₀ : err = none := herr.symm.trans hnone
        exact .waits hne (herr'.trans herr₀.symm) (fun _ => herr₀) hret
      · refine .broken hidle' herr' hret (by simp [System.result, hlast]) ⟨_, _, _, _, _, hs', ?_⟩
        change Waits (t.client.write nwritten).ctx.reader fed outs
        rw [hreader]
        exact hs.waits hidle
  | read nread =>
    obtain ⟨hphase, hnone, k, u, hk, hu, rfl⟩ := step_read hstep
    refine ⟨?_, rfl⟩
    have hidle : ¬ t.client.phase = .idle := by simp [hphase]
    cases ht with
    | replied h _ _ _ _ => exact absurd h hidle
    | broken h _ _ _ _ => exact absurd h hidle
    | waits _ herr hreading hret =>
      have herr₀ := hreading hphase
      have hdown := hs.down
      rw [hu] at hdown
      obtain ⟨k', hread, hobuf, hblock, hlooked⟩ := Client.read_eq hs.tracks hdown hphase
        (hs.waits hidle) fun buf hbuf => by
          subst hbuf
          exact ⟨hnone buf rfl, hfit⟩
      obtain rfl := Except.ok.inj (hread.symm.trans hk)
      -- what has been read is the answer, or a part of it, or the connection is lost
      rw [← List.append_assoc] at hdown
      have hans := hs.answering hobuf hblock hlooked hdown (fun _ => hs.flushed hphase)
        (fun _ => herr.trans herr₀) fun _ _ _ _ _ => herr.trans herr₀
      rwa [herr, hret] at hans

/-- **A run of a call.** -/
theorem Answering.run {es : List (Event ν)} (ht : Answering srv s₀ err returned t)
    (hord : Ordered srv s₀ t) (he : ∀ e ∈ es, e.Network)
    (hrun : Runs.Run (steps srv vprintf) t es t') :
    Answering srv s₀ err returned t' ∧ t'.cmds = t.cmds ∧ Ordered srv s₀ t' := by
  induction hrun with
  | nil => exact ⟨ht, rfl, hord⟩
  | @snoc es u e u' _ hs ih =>
    obtain ⟨hu, hcmds, hordu⟩ := ih fun e' he' => he e' (List.mem_append_left _ he')
    have hlast := he e (List.mem_append_right _ (List.mem_singleton_self e))
    obtain ⟨hu', hcmds'⟩ := hu.step hordu hlast hs.1 hs.2
    exact ⟨hu', hcmds'.trans hcmds, hordu.step hs.1 hs.2⟩

/-! ### Between two calls -/

/-- **The system and the connection between two calls**: as long as there is no error, all commands
have been answered and all answers returned, and after an error nothing is returned any more. -/
structure Quiet (srv : Server σ) (s₀ : σ) (s : System σ) (c : Redis.Context) : Prop where
  ordered : Ordered srv s₀ s
  idle : s.client.phase = .idle
  err : c.err = s.client.ctx.err.isSome
  cmds : s.client.ctx.err = none → s.cmds = c.sent.map Prod.fst
  returned : s.client.ctx.err = none → s.returned = c.sent.map Prod.snd
  waits : s.client.ctx.err.isSome → StillWaits srv s₀ s

/-- What the connection has been answered is what the server answers. -/
def Honest (srv : Server σ) (s₀ : σ) (c : Redis.Context) : Prop :=
  ∀ (i : ℕ) (argv : List Str) (v : Reply), c.sent[i]? = some (argv, some v) →
    (srv.answers s₀ (c.sent.map Prod.fst))[i]? = some v

theorem quiet_start : Quiet srv s₀ (start s₀) ⟨false, []⟩ :=
  ⟨ordered_start, rfl, rfl, fun _ => rfl, fun _ => rfl, fun h => absurd h (by
    simp [start, RedisContext.connected])⟩

/-- Between two calls the reader waits. -/
theorem Quiet.stillWaits {c : Redis.Context} (hq : Quiet srv s₀ s c) : StillWaits srv s₀ s := by
  cases herr : s.client.ctx.err with
  | some e => exact hq.waits (by simp [herr])
  | none =>
    obtain ⟨fed, outs, rs, answered, pending, hs⟩ := hq.ordered
    -- as many replies have been returned as there are commands
    have hle := (hs.tracks.of_wires hs.down).2
    have hlen : outs.length = s.cmds.length := by
      rw [hq.cmds herr, List.length_map, ← List.length_map (f := some), ← hs.returned,
        hq.returned herr, List.length_map]
    have hall : outs = srv.answers s₀ answered := by
      refine hle.eq_of_length_le ?_
      rw [srv.length_answers, hlen, hs.cmds, List.length_append]
      exact Nat.le_add_right _ _
    have htracks := hs.tracks
    have hdown := hs.down
    rw [← hall] at hdown
    exact ⟨_, _, _, _, _, hs, htracks.waits_of_all hdown⟩

/-- What has been returned without an error is what the server answers. -/
theorem Quiet.honest {c : Redis.Context} (hq : Quiet srv s₀ s c)
    (herr : s.client.ctx.err = none) : Honest srv s₀ c := by
  intro i argv v hi
  obtain ⟨fed, outs, rs, answered, pending, hs⟩ := hq.ordered
  have hle := (hs.tracks.of_wires hs.down).2
  have hall : outs <+: srv.answers s₀ (c.sent.map Prod.fst) := by
    rw [← hq.cmds herr, hs.cmds, srv.answers_append]
    exact hle.trans (List.prefix_append _ _)
  have hout : (outs.map some)[i]? = some (some v) := by
    rw [← hs.returned, hq.returned herr, List.getElem?_map, hi]
    rfl
  rw [List.getElem?_map, Option.map_eq_some_iff] at hout
  obtain ⟨v', hv', hsome⟩ := hout
  obtain rfl := Option.some.inj hsome
  obtain ⟨rest, hrest⟩ := hall
  rw [← hrest, List.getElem?_append_left (List.getElem?_eq_some_iff.mp hv').1, hv']

/-- A command that is not answered does not change what has been answered. -/
theorem Honest.broken {c : Redis.Context} (hc : Honest srv s₀ c) (argv : List Str) (b : Bool) :
    Honest srv s₀ ⟨b, c.sent ++ [(argv, none)]⟩ := by
  intro i a v hi
  have hlt : i < c.sent.length := by
    by_contra hge
    rw [List.getElem?_append_right (by omega)] at hi
    have hmem := List.mem_of_getElem? hi
    simp at hmem
  rw [List.getElem?_append_left hlt] at hi
  rw [List.map_append, srv.answers_append, List.getElem?_append_left]
  · exact hc i a v hi
  · rw [srv.length_answers, List.length_map]
    exact hlt

/-- **A call of `redisGetReply` begins** between two calls. -/
theorem Quiet.begin {c : Redis.Context} {format : Str} {ap : List (VaArg ν)} {t t₁ : System σ}
    (hq : Quiet srv s₀ s c) (hargv : formatArgv vprintf format ap = .ok (some argv))
    (happend : steps srv vprintf s (.append format ap) t)
    (hget : steps srv vprintf t .getReply t₁) :
    Answering srv s₀ s.client.ctx.err s.returned t₁ ∧ t₁.cmds = s.cmds ++ [argv] := by
  obtain ⟨fed, outs, rs, answered, pending, hs, hwait⟩ := hq.stillWaits
  obtain ⟨hidle, argv', ctx, hargv', hreader, hblock, hobuf, -, herr, rfl⟩ :=
    step_append happend.2
  obtain rfl : argv' = some argv := Except.ok.inj (hargv'.symm.trans hargv)
  have hfit : ∀ a, some argv = some a →
      s.client.ctx.obuf.length + (protocol a).length < 2 ^ 31 := fun a ha => by
    obtain rfl := Option.some.inj ha
    simpa [Fits, cmdLength, hargv] using happend.1
  have ht := hs.append hidle hfit hreader hblock hobuf
  have herr' := herr (by simp)
  obtain ⟨-, k, hk, rfl⟩ := step_getReply hget.2
  obtain ⟨k', hget', hobuf', hblock', hne, hlooked⟩ := Client.getReply_eq ht.tracks ht.down
  obtain rfl := Except.ok.inj (hget'.symm.trans hk)
  refine ⟨?_, rfl⟩
  have hans := ht.answering hobuf' hblock' hlooked ht.down (fun h => absurd h hne)
    (fun h => absurd h hne) fun p v _ _ htracks => by
      -- the reader has no reply
      obtain ⟨b, hb, hw⟩ := htracks.texts
      have hbegins := hwait.begins hw hb
      have hlen := hbegins.length_le
      rw [List.length_append, List.length_singleton] at hlen
      exact absurd hlen (Nat.not_succ_le_self _)
  rw [← herr']
  exact hans

end System

/-- `redisCommand` of the connection, where the format is valid. -/
theorem redisCommand_of_format {c : Redis.Context} {format : Str} {ap : List (VaArg ν)}
    (h : formatArgv vprintf format ap = .ok (some argv)) (answer : Option Reply) :
    c.redisCommand vprintf format ap answer =
      if c.err then .ok (c, none)
      else .ok (⟨answer.isNone, c.sent ++ [(argv, answer)]⟩, answer) := by
  rw [Redis.Context.redisCommand, h]
  rfl

/-- **A call of `redisCommand`** over the system is one of the connection. -/
theorem System.Quiet.call {c : Redis.Context} {format : Str} {ap : List (VaArg ν)}
    {s₁ s₂ s' : System σ} {es : List (Event ν)} (hq : s.Quiet srv s₀ c)
    (hc : System.Honest srv s₀ c) (hargv : formatArgv vprintf format ap = .ok (some argv))
    (happend : System.steps srv vprintf s (.append format ap) s₁)
    (hget : System.steps srv vprintf s₁ .getReply s₂)
    (hrun : Runs.Run (System.steps srv vprintf) s₂ es s') (he : ∀ e ∈ es, e.Network)
    (hidle : s'.client.phase = .idle) :
    ∃ c' answer, c.redisCommand vprintf format ap answer = .ok (c', s'.result) ∧
      s'.Quiet srv s₀ c' ∧ System.Honest srv s₀ c' := by
  obtain ⟨hbegun, hcmds₂⟩ := hq.begin hargv happend hget
  have hord₂ := (hq.ordered.step happend.1 happend.2).step hget.1 hget.2
  obtain ⟨hans, hcmds', hord'⟩ := hbegun.run hord₂ he hrun
  cases hans with
  -- the call has ended, so the client does not wait any more
  | waits hne _ _ _ => exact absurd hidle hne
  | @replied v _ herr' herr hret hres =>
    -- answered: the connection was there, and the answer is that of the server to this command
    have hcerr : c.err = false := by rw [hq.err, herr]; rfl
    have hq' : s'.Quiet srv s₀ ⟨false, c.sent ++ [(argv, some v)]⟩ := by
      refine ⟨hord', hidle, by rw [herr']; rfl, fun _ => ?_, fun _ => ?_, fun h => ?_⟩
      · rw [hcmds', hcmds₂, hq.cmds herr, List.map_append]
        rfl
      · rw [hret, hq.returned herr, List.map_append]
        rfl
      · exact absurd h (by simp [herr'])
    refine ⟨_, some v, ?_, hq', hq'.honest herr'⟩
    rw [redisCommand_of_format hargv, hcerr, hres]
    rfl
  | broken _ herr' hret hres hwait =>
    cases herr : s.client.ctx.err with
    -- broken before the call: the connection stays as it is
    | some e =>
      have hcerr : c.err = true := by rw [hq.err, herr]; rfl
      refine ⟨c, none, ?_, ⟨hord', hidle, by rw [hcerr, herr'], fun h => ?_, fun h => ?_,
        fun _ => hwait⟩, hc⟩
      · rw [redisCommand_of_format hargv, hcerr, hres]
        rfl
      · exact absurd herr' (by simp [h])
      · exact absurd herr' (by simp [h])
    | none =>
      -- broken by the call: the connection takes the command without an answer
      have hcerr : c.err = false := by rw [hq.err, herr]; rfl
      refine ⟨⟨true, c.sent ++ [(argv, none)]⟩, none, ?_, ⟨hord', hidle, herr'.symm, fun h => ?_,
        fun h => ?_, fun _ => hwait⟩, hc.broken argv true⟩
      · rw [redisCommand_of_format hargv, hcerr, hres]
        rfl
      · exact absurd herr' (by simp [h])
      · exact absurd herr' (by simp [h])

/-- **A call with a format that is not valid.** -/
theorem System.Quiet.invalid {c : Redis.Context} {format : Str} {ap : List (VaArg ν)}
    {s' : System σ} (hq : s.Quiet srv s₀ c) (hargv : formatArgv vprintf format ap = .ok none)
    (happend : System.steps srv vprintf s (.append format ap) s') :
    c.redisCommand vprintf format ap none = .ok ({ c with err := true }, none) ∧
      s'.Quiet srv s₀ { c with err := true } := by
  obtain ⟨fed, outs, rs, answered, pending, hs, hwait⟩ := hq.stillWaits
  have hord' := hq.ordered.step happend.1 happend.2
  obtain ⟨hidle, argv', ctx, hargv', hreader, hblock, hobuf, herr, -, rfl⟩ :=
    System.step_append happend.2
  obtain rfl : argv' = none := Except.ok.inj (hargv'.symm.trans hargv)
  have hsome := herr rfl
  have hs' := hs.append hidle (fun a ha => absurd ha (by simp)) hreader hblock hobuf
  refine ⟨?_, hord', hidle, hsome.symm, fun h => ?_, fun h => ?_, fun _ =>
    ⟨_, _, _, _, _, hs', hreader.symm ▸ hwait⟩⟩
  · rw [Redis.Context.redisCommand, hargv]
    rfl
  · exact absurd hsome (by simp [show ctx.err = none from h])
  · exact absurd hsome (by simp [show ctx.err = none from h])

/-- **What happens between two calls** does not matter. -/
theorem System.Quiet.other {c : Redis.Context} {s' : System σ} {e : Event ν}
    (hq : s.Quiet srv s₀ c) (he : (∃ argv, e = .serve argv) ∨ ∃ i, e = .freeReply i)
    (hstep : System.steps srv vprintf s e s') : s'.Quiet srv s₀ c := by
  have hord' := hq.ordered.step hstep.1 hstep.2
  rcases he with ⟨argv, rfl⟩ | ⟨i, rfl⟩
  · obtain ⟨hin, rfl⟩ := System.step_serve hstep.2
    exact ⟨hord', hq.idle, hq.err, hq.cmds, hq.returned, fun h => (hq.waits h).serve hin⟩
  · obtain ⟨p, heap, hi, hfree, rfl⟩ := System.step_freeReply hstep.2
    refine ⟨hord', hq.idle, hq.err, hq.cmds, hq.returned, fun h => ?_⟩
    obtain ⟨fed, outs, rs, answered, pending, hs, hwait⟩ := hq.waits h
    obtain ⟨heap', rs', hfree', hs'⟩ := hs.freeReply hi
    obtain rfl := Except.ok.inj (hfree'.symm.trans hfree)
    exact ⟨_, _, _, _, _, hs', hwait⟩

/-- A call of `redisCommand` of the connection. -/
def connectionStep (vprintf : Str → ν → Str) (c : Redis.Context)
    (call : Str × List (VaArg ν) × Option Reply) (c' : Redis.Context) : Prop :=
  ∃ answer, c.redisCommand vprintf call.1 call.2.1 answer = .ok (c', call.2.2)

/-- **The calls are calls of a connection** that answers at once: they return the same, and what
has been answered over the connection is what the server answers. -/
theorem Commands.refines {calls : List (Str × List (VaArg ν) × Option Reply)}
    (h : Commands srv vprintf s₀ calls s) :
    ∃ c, Runs.Run (connectionStep vprintf) ⟨false, []⟩ calls c ∧
      c.err = s.client.ctx.err.isSome ∧ System.Honest srv s₀ c := by
  suffices hquiet : ∃ c, Runs.Run (connectionStep vprintf) ⟨false, []⟩ calls c ∧
      s.Quiet srv s₀ c ∧ System.Honest srv s₀ c by
    obtain ⟨c, hrun, hq, hc⟩ := hquiet
    exact ⟨c, hrun, hq.err, hc⟩
  induction h with
  | nil => exact ⟨_, .nil, System.quiet_start, fun i argv v hi => absurd hi (by simp)⟩
  | invalid _ hargv hstep ih =>
    obtain ⟨c, hrun, hq, hc⟩ := ih
    obtain ⟨hcall, hq'⟩ := hq.invalid hargv hstep
    exact ⟨_, hrun.snoc ⟨none, hcall⟩, hq', hc⟩
  | call _ hargv happend hget hes he hidle ih =>
    obtain ⟨c, hrun, hq, hc⟩ := ih
    obtain ⟨c', answer, hcall, hq', hc'⟩ := hq.call hc hargv happend hget hes he hidle
    exact ⟨c', hrun.snoc ⟨answer, hcall⟩, hq', hc'⟩
  | other _ he hstep ih =>
    obtain ⟨c, hrun, hq, hc⟩ := ih
    exact ⟨c, hrun, hq.other he hstep, hc⟩

/-- A step that fits, if it can be taken. -/
def System.next (srv : Server σ) (vprintf : Str → ν → Str) (s : System σ) (e : Event ν) :
    Option (System σ) :=
  if s.Fits vprintf e then s.step srv vprintf e else none

theorem System.steps_of_next {e : Event ν} (h : s.next srv vprintf e = some t) :
    System.steps srv vprintf s e t := by
  unfold System.next at h
  split_ifs at h with hfit
  exact ⟨hfit, h⟩

/-- A call by running it. -/
theorem Commands.of_foldlM {calls : List (Str × List (VaArg ν) × Option Reply)} {format : Str}
    {ap : List (VaArg ν)} {es : List (Event ν)} (h : Commands srv vprintf s₀ calls s)
    (hargv : formatArgv vprintf format ap = .ok (some argv)) (he : ∀ e ∈ es, e.Network)
    (hrun : (.append format ap :: .getReply :: es).foldlM (System.next srv vprintf) s = some t)
    (hidle : t.client.phase = .idle) :
    Commands srv vprintf s₀ (calls ++ [(format, ap, t.result)]) t := by
  rw [List.foldlM_cons, Option.bind_eq_bind, Option.bind_eq_some_iff] at hrun
  obtain ⟨s₁, happend, hrun⟩ := hrun
  rw [List.foldlM_cons, Option.bind_eq_bind, Option.bind_eq_some_iff] at hrun
  obtain ⟨s₂, hget, hrun⟩ := hrun
  exact .call h hargv (System.steps_of_next happend) (System.steps_of_next hget)
    ((Runs.run_of_foldlM hrun).mono fun _ _ _ => System.steps_of_next) he hidle

/-- A command that is answered, one on which the connection is lost, and a format that is not
valid. -/
def pingCalls : List (Str × List (VaArg Unit) × Option Reply) :=
  [("PING".toList, [], some ⟨.integer, 0, [], []⟩), ("PING".toList, [], none),
    ("%y".toList, [], none)]

/-- A step of a client that gives only text, and a server that counts. -/
def pingNext : System ℕ → Event Unit → Option (System ℕ) :=
  System.next System.counting fun s (_ : Unit) => s

theorem Commands.refines_ping : ∃ (s : System ℕ) (c : Redis.Context),
    Commands System.counting (fun s (_ : Unit) => s) 0 pingCalls s ∧
    Runs.Run (connectionStep fun s (_ : Unit) => s) ⟨false, []⟩ pingCalls c ∧
      c.err = s.client.ctx.err.isSome := by
  have hsome : (([.append "PING".toList [], .getReply, .write (.written 14),
      .serve ["PING".toList], .read (.bytes [':', '0', '\r', '\n'])].foldlM pingNext
        (.start 0)).bind fun s₁ => ([.append "PING".toList [], .getReply, .write (.written 14),
      .read .closed].foldlM pingNext s₁).bind fun s₂ =>
        (pingNext s₂ (.append "%y".toList [])).map fun _ =>
          (s₁.client.phase, s₁.result, s₂.client.phase, s₂.result)) =
      some (.idle, some ⟨.integer, 0, [], []⟩, .idle, none) := rfl
  obtain ⟨s₁, hfirst, hsome⟩ := Option.bind_eq_some_iff.mp hsome
  obtain ⟨s₂, hsecond, hsome⟩ := Option.bind_eq_some_iff.mp hsome
  obtain ⟨s, hlast, he⟩ := Option.map_eq_some_iff.mp hsome
  simp only [Prod.mk.injEq] at he
  obtain ⟨hidle₁, hres₁, hidle₂, hres₂⟩ := he
  have h₁ := Commands.of_foldlM .nil rfl (by simp [Event.Network]) hfirst hidle₁
  have h₂ := Commands.of_foldlM h₁ rfl (by simp [Event.Network]) hsecond hidle₂
  have h₃ := Commands.invalid h₂ rfl (System.steps_of_next hlast)
  rw [hres₁, hres₂] at h₃
  obtain ⟨c, hcon, herr, -⟩ := h₃.refines
  exact ⟨s, c, h₃, hcon, herr⟩

end

end Hiredis

end BackendStudy
