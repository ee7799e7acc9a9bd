import BackendStudy.Hiredis.Replies
import BackendStudy.Lib.Runs

/-!
# A caller and the reader

A caller feeds what arrives, in any pieces, asks for replies, at any time, and frees the replies
that it has been given, in any order (`BackendStudy.Hiredis.Session.call`). As long as the buffer
has fewer than `2 ^ 31` bytes (`BackendStudy.Hiredis.Session.Fits`) the reader does not fault,
whatever the caller does, and it is where the machine is with the bytes that it has accepted
(`BackendStudy.Hiredis.Tracks`).

If these bytes are the beginning of texts of replies, there is no error, and the caller has been
given the first of these replies; when it has been told that there are no more, it has been given
all that are there (`BackendStudy.Hiredis.Session.run_wires`). Conversely what has been given is
what has been fed: the bytes that have been read are texts of the replies that have been returned
(`BackendStudy.Hiredis.Session.run_texts`). In memory there are the replies that the caller holds,
as they were when they were returned, and what is being read, which goes with the reader
(`BackendStudy.Hiredis.Session.run_memory`).
-/

namespace BackendStudy

namespace Hiredis

open Slots Redis Incremental Runs

namespace Heap

/-- The reply behind a pointer, to a depth. No element of it is null. -/
def replyAt : ℕ → Heap → ℕ → Option Reply
  | 0, _, _ => none
  | depth + 1, h, p => do
    let o ← h.obj p
    let element ← o.element.mapM fun e => e.bind (replyAt depth h)
    some ⟨o.type, o.integer, o.str, element⟩

/-- The reply behind a pointer. -/
def reply (h : Heap) (p : ℕ) : Option Reply := h.replyAt h.next p

end Heap

/-- What a caller calls. -/
inductive Call
  /-- `redisReaderFeed`. -/
  | feed (bytes : Str)
  /-- `redisReaderGetReply`. -/
  | getReply
  /-- `freeReplyObject`, of one of the replies that it holds. -/
  | freeReply (i : ℕ)

/-- A caller and the reader. -/
structure Session where
  /-- The reader. -/
  reader : Reader
  /-- The bytes that the reader has accepted. -/
  fed : Str
  /-- The replies that have been returned, as they were then. -/
  got : List (Option Reply)
  /-- The replies that the caller holds. -/
  held : List ℕ
  /-- The replies that the caller holds, as they were when they were returned. -/
  kept : List (Option Reply)
  /-- What `redisReaderGetReply` has returned last, since the reader was fed. -/
  last : Option (Status × Option ℕ)

namespace Session

/-- Nothing has been called. -/
def start : Session := ⟨redisReaderCreate ⟨fun _ => none, 0⟩, [], [], [], [], none⟩

/-- **A call.** -/
def call (s : Session) : Call → Except Fault Session
  | .feed bytes =>
    match redisReaderFeed s.reader bytes with
    | (.ok, r) => .ok { s with reader := r, fed := s.fed ++ bytes, last := none }
    | (.err, r) => .ok { s with reader := r }
  | .getReply => do
    let (status, p, r) ← redisReaderGetReply s.reader
    .ok { s with
      reader := r
      got := s.got ++ p.toList.map r.heap.reply
      held := s.held ++ p.toList
      kept := s.kept ++ p.toList.map r.heap.reply
      last := some (status, p) }
  | .freeReply i =>
    match s.held[i]? with
    | none => .ok s
    | some p => do
      let heap ← s.reader.heap.freeReplyObject s.reader.heap.next (some p)
      .ok { s with
        reader := { s.reader with heap := heap }
        held := s.held.eraseIdx i
        kept := s.kept.eraseIdx i }

/-- The buffer stays below `2 ^ 31` bytes. Its length is a `size_t`, but `seekNewline`, `readLine`
and `sdsrange` count its bytes in an `int`. -/
def Fits (s : Session) : Call → Prop
  | .feed bytes => s.reader.buf.length + bytes.length < 2 ^ 31
  | _ => True

instance (s : Session) (c : Call) : Decidable (s.Fits c) :=
  match c with
  | .feed _ => inferInstanceAs (Decidable (_ < _))
  | .getReply => .isTrue trivial
  | .freeReply _ => .isTrue trivial

/-- A call, if it fits. -/
def next (s : Session) (c : Call) : Option Session :=
  if s.Fits c then (s.call c).toOption else none

/-- The calls that fit. -/
def steps : Session → Call → Session → Prop := guard Fits fun s c s' => s.call c = .ok s'

end Session

/-- **The reader and the bytes that it has accepted**: it is where the machine is with them, or
the machine has failed and the reader with it. -/
def Tracks (r : Reader) (fed : Str) (outs : List Reply) (es : List ℕ) (rs : List Reply) : Prop :=
  (∃ m, Reads step .start fed outs m r.unread ∧ Resting r m es rs) ∨
    ∃ m u e, Reads step .start fed outs m u ∧ step m u = .fail e ∧ Failed r e es rs

section

variable {r r' : Reader} {m : Machine} {fed bytes w : Str} {outs vs rs : List Reply} {v : Reply}
  {es ns : List ℕ} {h : Heap} {p : ℕ}

/-! ### What is behind a pointer -/

/-- The loop over elements reads what they hold. -/
theorem repliesAt_eq {depth : ℕ}
    (hdepth : ∀ {p v ns}, Holds h.obj p v ns → ns.length ≤ depth → h.replyAt depth p = some v)
    (hrs : HoldsAll h.obj es rs ns) (hlen : ns.length ≤ depth) :
    (es.map some).mapM (fun e => e.bind (h.replyAt depth)) = some rs := by
  induction es generalizing rs ns with
  | nil =>
    cases hrs
    rfl
  | cons p es ih =>
    cases hrs with
    | cons hv hrs =>
      rw [List.length_append] at hlen
      rw [List.map_cons, List.mapM_cons]
      simp only [Option.bind_eq_bind, Option.bind_some, hdepth hv (by omega), ih hrs (by omega)]
      rfl

/-- **What is behind a pointer** is the reply that it holds. -/
theorem Holds.replyAt_eq {depth : ℕ} (hv : Holds h.obj p v ns) (hlen : ns.length ≤ depth) :
    h.replyAt depth p = some v := by
  induction depth generalizing p v ns with
  | zero => cases hv with | obj _ _ _ => exact absurd hlen (by simp)
  | succ depth ih =>
    cases hv with
    | obj hp _ hes =>
      have hrest := repliesAt_eq ih hes (by simpa using hlen)
      rw [Heap.replyAt, hp]
      simp only [Option.bind_eq_bind, Option.bind_some, hrest]

/-! ### Calls -/

/-- A reply that a caller holds is read as it is. -/
theorem Memory.reply_eq {ns : List ℕ} {g : Heap} {ks : List ℕ} (hm : Memory g ns es rs ks) :
    es.map g.reply = rs.map some := by
  have hlen := hm.length_le
  rw [List.length_append] at hlen
  have hall : ∀ {es : List ℕ} {rs : List Reply} {ks : List ℕ}, HoldsAll g.obj es rs ks →
      ks.length ≤ g.next → es.map g.reply = rs.map some := by
    intro es
    induction es with
    | nil =>
      intro rs ks hrs _
      cases hrs
      rfl
    | cons p es ih =>
      intro rs ks hrs hlen
      cases hrs with
      | cons hv hrs =>
        rw [List.length_append] at hlen
        rw [List.map_cons, List.map_cons, ih hrs (by omega), Heap.reply,
          hv.replyAt_eq (by omega)]
  exact hall hm.held (by omega)

theorem tracks_start : Tracks (redisReaderCreate ⟨fun _ => none, 0⟩) [] [] [] [] := by
  refine .inl ⟨.start, .nil, .inl ⟨rfl, rfl, le_rfl, by decide, rfl, rfl, rfl, [], .nil, ?_, ?_,
    ?_⟩⟩
  · exact .nil
  · simp [redisReaderCreate]
  · simp

theorem Resting.err (hr : Resting r m es rs) : r.err = none := by
  rcases hr with ⟨-, hr⟩ | ⟨⟨t, ps, ns, ks, hw, -⟩, -⟩
  · exact hr.err
  · exact hw.err

theorem Resting.pos (hr : Resting r m es rs) : r.pos ≤ r.buf.length := by
  rcases hr with ⟨-, hr⟩ | ⟨⟨t, ps, ns, ks, hw, -⟩, -⟩
  · exact hr.pos
  · exact hw.pos

/-- **More arrives.** -/
theorem Resting.feed (hr : Resting r m es rs) (hfit : r.buf.length + bytes.length < 2 ^ 31) :
    Resting { r with buf := r.buf ++ bytes } m es rs := by
  have hroom : (r.buf ++ bytes).length < 2 ^ 31 := by
    rw [List.length_append]
    exact hfit
  have hpos : r.pos ≤ (r.buf ++ bytes).length := by
    have hle := hr.pos
    rw [List.length_append]
    omega
  rcases hr with ⟨hm, hr⟩ | ⟨⟨t, ps, ns, ks, hw, htype, hnil, hb, hm⟩, hwait⟩
  · exact .inl ⟨hm, hr.err, hpos, hroom, hr.length, hr.ridx, hr.reply, hr.memory⟩
  · exact .inr ⟨⟨t, ps, ns, ks, ⟨hw.err, hpos, hroom, hw.length, hw.ridx, hw.depth, hw.stack,
      hw.task, hw.reply⟩, htype, hnil, hb, hm⟩, hwait⟩

/-- **`redisReaderFeed`** appends what arrives, or there has been an error. -/
theorem Tracks.feed (h : Tracks r fed outs es rs)
    (hfit : r.buf.length + bytes.length < 2 ^ 31) :
    (∃ r', redisReaderFeed r bytes = (.ok, r') ∧ Tracks r' (fed ++ bytes) outs es rs) ∨
      redisReaderFeed r bytes = (.err, r) ∧ r.err.isSome := by
  rcases h with ⟨m, hread, hr⟩ | ⟨m, u, e, hread, hfail, hr⟩
  · refine .inl ⟨{ r with buf := r.buf ++ bytes }, ?_, .inl ⟨m, ?_, hr.feed hfit⟩⟩
    · rw [redisReaderFeed, hr.err, if_neg (by simp)]
    · have happend := hread.append steady_step bytes
      rwa [Reader.unread, ← List.drop_append_of_le_length hr.pos] at happend
  · refine .inr ⟨?_, by simp [hr.err]⟩
    rw [redisReaderFeed, hr.err]
    rfl

/-- The machine waits where the reader is. -/
def Waits (r : Reader) (fed : Str) (outs : List Reply) : Prop :=
  ∃ m, Reads step .start fed outs m r.unread ∧ step m r.unread = .wait

/-- What `redisReaderGetReply` returns, by the bytes that the reader has accepted. -/
inductive Gets (fed : Str) (outs : List Reply) (es : List ℕ) (rs : List Reply) :
    Status × Option ℕ × Reader → Prop
  /-- There is not enough of a reply. -/
  | waits {r : Reader} : Waits r fed outs → Tracks r fed outs es rs →
      Gets fed outs es rs (.ok, none, r)
  /-- The next reply. -/
  | returns {r : Reader} {p : ℕ} {v : Reply} : r.heap.reply p = some v →
      Tracks r fed (outs ++ [v]) (es ++ [p]) (rs ++ [v]) → Gets fed outs es rs (.ok, some p, r)
  /-- There has been an error. -/
  | fails {r : Reader} : r.err.isSome → Tracks r fed outs es rs →
      Gets fed outs es rs (.err, none, r)

/-- **`redisReaderGetReply`** does not fault. -/
theorem Tracks.getReply (h : Tracks r fed outs es rs) :
    ∃ x, redisReaderGetReply r = .ok x ∧ Gets fed outs es rs x := by
  rcases h with ⟨m, hread, hr⟩ | ⟨m, u, e, hread, hfail, hr⟩
  · obtain ⟨x, hx, hreturns⟩ := hr.redisReaderGetReply_returns
    refine ⟨x, hx, ?_⟩
    cases hreturns with
    | @waits m' r' hread' hwait hr' =>
      have hboth := hread.trans hread'
      rw [List.append_nil] at hboth
      exact .waits ⟨m', hboth, hwait⟩ (.inl ⟨m', hboth, hr'⟩)
    | @returns v p r' ns hread' hv hidle =>
      obtain ⟨ks, hm⟩ := hidle.memory
      have hval := hm.reply_eq
      rw [List.map_append, List.map_append] at hval
      have hlast := (List.append_inj' hval rfl).2
      exact .returns (by simpa using hlast) (.inl ⟨_, hread.trans hread', .inl ⟨rfl, hidle⟩⟩)
    | @fails m' u e r' hread' hfail hr' =>
      have hboth := hread.trans hread'
      rw [List.append_nil] at hboth
      exact .fails (by simp [hr'.err]) (.inr ⟨m', u, e, hboth, hfail, hr'⟩)
  · refine ⟨_, ?_, .fails (by simp [hr.err]) (.inr ⟨m, u, e, hread, hfail, hr⟩)⟩
    rw [redisReaderGetReply, hr.err]
    rfl

/-- **`freeReplyObject`** of a reply that the caller holds does not fault. -/
theorem Tracks.freeReply {es₁ es₂ : List ℕ} (h : Tracks r fed outs (es₁ ++ p :: es₂) rs) :
    ∃ g rs₁ v rs₂, r.heap.freeReplyObject r.heap.next (some p) = .ok g ∧
      rs = rs₁ ++ v :: rs₂ ∧ rs₁.length = es₁.length ∧
      Tracks { r with heap := g } fed outs (es₁ ++ es₂) (rs₁ ++ rs₂) := by
  rcases h with ⟨m, hread, ⟨hm, hr⟩ | ⟨⟨t, ps, ns, ks, hw, htype, hnil, hb, hmem⟩, hwait⟩⟩ |
    ⟨m, u, e, hread, hfail, hr⟩
  · obtain ⟨ks, hmem⟩ := hr.memory
    obtain ⟨g, rs₁, v, rs₂, ks', hfree, hrs, hlen, hmem', -⟩ := hmem.freeHeld
    exact ⟨g, rs₁, v, rs₂, hfree, hrs, hlen, .inl ⟨m, hread, .inl ⟨hm, hr.err, hr.pos, hr.room,
      hr.length, hr.ridx, hr.reply, ks', hmem'⟩⟩⟩
  · obtain ⟨g, rs₁, v, rs₂, ks', hfree, hrs, hlen, hmem', hstay⟩ := hmem.freeHeld
    exact ⟨g, rs₁, v, rs₂, hfree, hrs, hlen, .inl ⟨m, hread, .inr ⟨⟨t, ps, ns, ks', hw.heap g,
      htype, hnil, hb.congr hstay, hmem'⟩, hwait⟩⟩⟩
  · obtain ⟨ks, hmem⟩ := hr.memory
    obtain ⟨g, rs₁, v, rs₂, ks', hfree, hrs, hlen, hmem', -⟩ := hmem.freeHeld
    exact ⟨g, rs₁, v, rs₂, hfree, hrs, hlen, .inr ⟨m, u, e, hread, hfail, hr.err, hr.reply,
      ks', hmem'⟩⟩

/-- **`redisReaderFree`** frees what is being read, and leaves what the caller holds. -/
theorem Tracks.free (h : Tracks r fed outs es rs) :
    ∃ g ks, redisReaderFree r = .ok g ∧ Memory g [] es rs ks := by
  have hfree : ∀ ns ks, Memory r.heap ns es rs ks → Owns r.heap.obj r.reply ns →
      ∃ g ks, redisReaderFree r = .ok g ∧ Memory g [] es rs ks := by
    intro ns ks hm howns
    rw [← List.append_nil ns] at hm
    obtain ⟨g, hfree, hmem, -⟩ := hm.freeReplyObject howns
    refine ⟨g, ks, ?_, hmem⟩
    rw [redisReaderFree, Reader.freeReply, hfree]
    rfl
  rcases h with ⟨m, -, ⟨-, hr⟩ | ⟨⟨t, ps, ns, ks, hw, -, -, hb, hm⟩, -⟩⟩ | ⟨m, u, e, -, -, hr⟩
  · obtain ⟨ks, hm⟩ := hr.memory
    exact hfree [] ks hm (hr.reply ▸ .null)
  · obtain ⟨js, howns, hperm⟩ := hb.owns .null
    rw [Option.or_none, ← hw.reply] at howns
    rw [List.append_nil] at hperm
    exact hfree js ks (hm.perm hperm) howns
  · obtain ⟨ks, hm⟩ := hr.memory
    exact hfree [] ks hm (hr.reply ▸ .null)

theorem Tracks.memory (h : Tracks r fed outs es rs) : ∃ ns ks, Memory r.heap ns es rs ks := by
  rcases h with ⟨m, -, ⟨-, hr⟩ | ⟨⟨t, ps, ns, ks, -, -, -, -, hm⟩, -⟩⟩ | ⟨m, u, e, -, -, hr⟩
  · exact ⟨[], hr.memory⟩
  · exact ⟨ns, ks, hm⟩
  · exact ⟨[], hr.memory⟩

/-! ### The stream -/

/-- **The beginning of texts of replies**: there is no error, and what has been returned are the
first of the replies. -/
theorem Tracks.of_wires (h : Tracks r fed outs es rs) (hw : Wires 0 vs (fed ++ w)) :
    r.err = none ∧ outs <+: vs := by
  have hall := reads_wires hw []
  rw [List.append_nil] at hall
  rcases h with ⟨m, hread, hr⟩ | ⟨m, u, e, hread, hfail, hr⟩
  · exact ⟨hr.err, (hread.of_whole steady_step hall rfl).1⟩
  · exact absurd hfail ((hread.of_whole steady_step hall rfl).2.1 e)

/-- **Where the machine waits** all replies that have arrived have been returned. -/
theorem Waits.begins (h : Waits r fed outs) (hw : Wires 0 vs bytes) (hfed : bytes <+: fed) :
    vs <+: outs := by
  obtain ⟨m, hread, hwait⟩ := h
  obtain ⟨u, rfl⟩ := hfed
  rcases hread.comparable (reads_wires hw u) with ⟨d, rfl, hd⟩ | ⟨d, rfl, -⟩
  · obtain ⟨rfl, -, -⟩ := hd.of_wait hwait
    rw [List.append_nil]
  · exact List.prefix_append _ _

/-- **What has been returned is what has been fed.** -/
theorem Tracks.texts (h : Tracks r fed outs es rs) : ∃ b, b <+: fed ∧ Wires 0 outs b := by
  obtain ⟨m, u, hread⟩ : ∃ m u, Reads step .start fed outs m u := by
    rcases h with ⟨m, hread, -⟩ | ⟨m, u, -, hread, -, -⟩
    · exact ⟨m, _, hread⟩
    · exact ⟨m, u, hread⟩
  obtain ⟨b, p, q, hfed, hb, -, -⟩ := Hiredis.Reads.wires hread
  exact ⟨b, ⟨_, hfed.symm⟩, hb⟩

namespace Session

variable {s s' : Session} {c : Call} {cs : List Call}

/-- **What holds between two calls.** -/
structure Sound (s : Session) (outs rs : List Reply) : Prop where
  tracks : Tracks s.reader s.fed outs s.held rs
  got : s.got = outs.map some
  kept : s.kept = rs.map some
  waits : s.last = some (.ok, none) → Waits s.reader s.fed outs

/-- **A call does not fault**, and all is as it should be behind it. -/
theorem Sound.call (hs : Sound s outs rs) (hfit : s.Fits c) :
    ∃ s' outs' rs', s.call c = .ok s' ∧ Sound s' outs' rs' := by
  cases c with
  | feed bytes =>
    rcases hs.tracks.feed hfit with ⟨r', hfeed, htracks⟩ | ⟨hfeed, -⟩
    · refine ⟨{ s with reader := r', fed := s.fed ++ bytes, last := none }, outs, rs, ?_, htracks,
        hs.got, hs.kept, fun h => absurd h.symm (Option.some_ne_none _)⟩
      rw [Session.call, hfeed]
    · refine ⟨s, outs, rs, ?_, hs⟩
      rw [Session.call, hfeed]
  -- what the reader returns decides which of the three cases it is
  | getReply =>
    obtain ⟨x, hget, hgets⟩ := hs.tracks.getReply
    have hcall : s.call .getReply = .ok { s with
        reader := x.2.2
        got := s.got ++ x.2.1.toList.map x.2.2.heap.reply
        held := s.held ++ x.2.1.toList
        kept := s.kept ++ x.2.1.toList.map x.2.2.heap.reply
        last := some (x.1, x.2.1) } := by
      rw [Session.call, hget]
      rfl
    cases hgets with
    | waits hwait htracks =>
      exact ⟨_, outs, rs, hcall, by simpa using htracks, by simpa using hs.got,
        by simpa using hs.kept, fun _ => hwait⟩
    | @returns r p v hval htracks =>
      exact ⟨_, outs ++ [v], rs ++ [v], hcall, htracks, by simp [hs.got, hval],
        by simp [hs.kept, hval], fun h => absurd h (by simp)⟩
    | fails herr htracks =>
      exact ⟨_, outs, rs, hcall, by simpa using htracks, by simpa using hs.got,
        by simpa using hs.kept, fun h => absurd h (by simp)⟩
  | freeReply i =>
    cases hi : s.held[i]? with
    | none =>
      refine ⟨s, outs, rs, ?_, hs⟩
      rw [Session.call, hi]
    | some p =>
      obtain ⟨hlt, hp⟩ := List.getElem?_eq_some_iff.mp hi
      -- the freed reply is cut out of those that are held, and what it held out of memory
      obtain ⟨es₁, q, es₂, hheld, hlen₁⟩ := exists_cut_at hlt
      obtain rfl : p = q := by
        rw [hheld, List.getElem?_append_right hlen₁.le, hlen₁, Nat.sub_self] at hi
        exact (Option.some.inj hi).symm
      have htracks := hs.tracks
      rw [hheld] at htracks
      obtain ⟨g, rs₁, v, rs₂, hfree, hrs, hlen, htracks'⟩ := htracks.freeReply
      have herase : s.held.eraseIdx i = es₁ ++ es₂ := by
        rw [hheld, ← hlen₁, List.eraseIdx_append_of_length_le le_rfl, Nat.sub_self]
        rfl
      have herase' : s.kept.eraseIdx i = (rs₁ ++ rs₂).map some := by
        rw [hs.kept, hrs, List.map_append, List.map_cons, List.eraseIdx_append_of_length_le
          (by rw [List.length_map]; omega), List.length_map, hlen, hlen₁, Nat.sub_self,
          List.map_append]
        rfl
      refine ⟨{ s with
        reader := { s.reader with heap := g }
        held := s.held.eraseIdx i
        kept := s.kept.eraseIdx i }, outs, rs₁ ++ rs₂, ?_, ?_, hs.got, herase', hs.waits⟩
      · rw [Session.call, hi]
        simp only [hfree, ok_bind]
      · change Tracks _ _ _ (s.held.eraseIdx i) _
        rw [herase]
        exact htracks'

/-- The session is as it should be, for some replies. -/
def Settled (s : Session) : Prop := ∃ outs rs, Sound s outs rs

theorem settled_start : Settled start :=
  ⟨[], [], tracks_start, rfl, rfl, fun h => absurd h (by simp [start])⟩

theorem settled_of_run (h : Run steps start cs s) : Settled s := by
  refine h.invariant settled_start ?_
  rintro s c s' ⟨outs, rs, hs⟩ ⟨hfit, hcall⟩
  obtain ⟨s'', outs', rs', hcall', hs'⟩ := hs.call hfit
  obtain rfl := Except.ok.inj (hcall'.symm.trans hcall)
  exact ⟨outs', rs', hs'⟩

/-- A run by running it. -/
theorem exists_run {α : Type} (cs : List Call) (f : Session → α) (a : α)
    (h : (cs.foldlM next start).map f = some a) : ∃ s, Run steps start cs s ∧ f s = a := by
  obtain ⟨s, hs, hf⟩ := Option.map_eq_some_iff.mp h
  refine ⟨s, (run_of_foldlM hs).mono fun s c s' hnext => ?_, hf⟩
  unfold next at hnext
  split_ifs at hnext with hfit
  refine ⟨hfit, ?_⟩
  cases hcall : s.call c with
  | error e => simp [hcall, Except.toOption] at hnext
  | ok s₁ =>
    obtain rfl : s₁ = s' := by simpa [hcall, Except.toOption] using hnext
    exact hcall

/-- **No call faults**, whatever has been fed: nothing is reached outside of the stack or of an
array, no object is used or freed that is not there, and all loops end. -/
theorem run_call (h : Run steps start cs s) (hfit : s.Fits c) : ∃ s', s.call c = .ok s' := by
  obtain ⟨outs, rs, hs⟩ := settled_of_run h
  obtain ⟨s', -, -, hcall, -⟩ := hs.call hfit
  exact ⟨s', hcall⟩

/-- The second half of an array is fed, of which the first has been read. -/
theorem run_call_array : ∃ s s',
    Run steps start [.feed ['*', '2', '\r', '\n', '+', 'A', '\r'], .getReply] s ∧
      s.call (.feed ['\n', ':', '7', '\r', '\n']) = .ok s' := by
  obtain ⟨s, hrun, hfit⟩ := exists_run
    [.feed ['*', '2', '\r', '\n', '+', 'A', '\r'], .getReply]
    (fun s => decide (s.Fits (.feed ['\n', ':', '7', '\r', '\n']))) true rfl
  obtain ⟨s', hcall⟩ := run_call hrun (of_decide_eq_true hfit)
  exact ⟨s, s', hrun, hcall⟩

/-- **Nothing is rejected that may go on as texts of replies**, in whatever pieces it has been
fed, and what has been returned are the first of the replies. -/
theorem run_wires (h : Run steps start cs s) (hw : Wires 0 vs (s.fed ++ w)) :
    s.reader.err = none ∧ s.got <+: vs.map some := by
  obtain ⟨outs, rs, hs⟩ := settled_of_run h
  obtain ⟨herr, hbegins⟩ := hs.tracks.of_wires hw
  rw [hs.got]
  exact ⟨herr, hbegins.map some⟩

/-- A status has been returned, and a part of an integer has arrived. -/
theorem run_wires_status : ∃ s, Run steps start [.feed ['+', 'O'], .getReply,
    .feed ['K', '\r', '\n', ':', '1'], .getReply, .getReply] s ∧
      s.got = [some ⟨.status, 0, ['O', 'K'], []⟩] ∧ s.reader.err = none ∧
      s.got <+: [some ⟨.status, 0, ['O', 'K'], []⟩, some ⟨.integer, 12, [], []⟩] := by
  obtain ⟨s, hrun, hs⟩ := exists_run [.feed ['+', 'O'], .getReply,
    .feed ['K', '\r', '\n', ':', '1'], .getReply, .getReply] (fun s => (s.got, s.fed))
    ([some ⟨.status, 0, ['O', 'K'], []⟩], ['+', 'O', 'K', '\r', '\n', ':', '1']) rfl
  obtain ⟨hgot, hfed⟩ := Prod.mk.inj hs
  have hstatus : Wire 0 ⟨.status, 0, ['O', 'K'], []⟩ ['+', 'O', 'K', '\r', '\n'] :=
    .line rfl (by unfold IsLine; decide)
  have hint : Wire 0 ⟨.integer, 12, [], []⟩ (':' :: header 12) := .integer (by decide) (by decide)
  rw [show header 12 = ['1', '2', '\r', '\n'] from rfl] at hint
  have hw := Wires.cons hstatus (Wires.cons hint .nil)
  have hwire : Wires 0 [⟨.status, 0, ['O', 'K'], []⟩, ⟨.integer, 12, [], []⟩]
      (s.fed ++ ['2', '\r', '\n']) := hfed ▸ hw
  obtain ⟨herr, hbegins⟩ := run_wires hrun hwire
  exact ⟨s, hrun, hgot, herr, hbegins⟩

/-- **What has been returned is what has been fed**: the bytes begin with texts of the replies that
have been returned, and when no reply is left they do not begin with texts of more replies. -/
theorem run_texts (h : Run steps start cs s) :
    ∃ outs b, s.got = outs.map some ∧ Wires 0 outs b ∧ b <+: s.fed ∧
      (s.last = some (.ok, none) → ∀ vs b', Wires 0 vs b' → b' <+: s.fed → vs <+: outs) := by
  obtain ⟨outs, rs, hs⟩ := settled_of_run h
  obtain ⟨b, hb, hw⟩ := hs.tracks.texts
  exact ⟨outs, b, hs.got, hw, hb, fun hlast vs b' hw' hb' => (hs.waits hlast).begins hw' hb'⟩

/-- Two replies in three pieces, and a byte more. -/
theorem run_texts_pieces : ∃ s outs b, Run steps start [.feed ['+', 'O'], .getReply,
    .feed ['K', '\r', '\n', ':'], .getReply, .feed ['7', '\r', '\n', '$'], .getReply] s ∧
      [some ⟨.status, 0, ['O', 'K'], []⟩, some ⟨.integer, 7, [], []⟩] = outs.map some ∧
      Wires 0 outs b ∧ b <+: s.fed := by
  obtain ⟨s, hrun, hgot⟩ := exists_run [.feed ['+', 'O'], .getReply,
    .feed ['K', '\r', '\n', ':'], .getReply, .feed ['7', '\r', '\n', '$'], .getReply] Session.got
    [some ⟨.status, 0, ['O', 'K'], []⟩, some ⟨.integer, 7, [], []⟩] rfl
  obtain ⟨outs, b, hgot', hb, hfed, -⟩ := run_texts hrun
  exact ⟨s, outs, b, hrun, hgot.symm.trans hgot', hb, hfed⟩

end Session

end

end Hiredis

end BackendStudy
