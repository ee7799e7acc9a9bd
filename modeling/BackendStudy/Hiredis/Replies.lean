import BackendStudy.Hiredis.Items

/-!
# One call of the reader

Between two calls the reader is idle or in the middle of a reply, in a state in which the machine
waits (`BackendStudy.Hiredis.Resting`). A call of `redisReaderGetReply` waits, returns a reply or
fails, as the machine does with what has not been read
(`BackendStudy.Hiredis.Resting.redisReaderGetReply_returns`). What is thrown away of the buffer has
been read.
-/

namespace BackendStudy

namespace Hiredis

open Slots Redis Incremental

/-- **The reader between two replies.** -/
structure Idle (r : Reader) (es : List ℕ) (rs : List Reply) : Prop where
  err : r.err = none
  pos : r.pos ≤ r.buf.length
  room : r.buf.length < 2 ^ 31
  length : r.rstack.length = 9
  ridx : r.ridx = -1
  reply : r.reply = none
  memory : ∃ ks, Memory r.heap [] es rs ks

/-- **The reader between two calls**, in a state of the machine. -/
def Resting (r : Reader) (m : Machine) (es : List ℕ) (rs : List Reply) : Prop :=
  (m = .start ∧ Idle r es rs) ∨ Parsing r m es rs ∧ step m [] = .wait

/-- What the loop over the items comes to. -/
inductive Ends (r : Reader) (m : Machine) (es : List ℕ) (rs : List Reply) : Reader → Prop
  /-- There is not enough of a reply. -/
  | waits {m' : Machine} {r' : Reader} : Reads step m r.unread [] m' r'.unread →
      step m' r'.unread = .wait → Parsing r' m' es rs → Ends r m es rs r'
  /-- A reply has been read. -/
  | returns {v : Reply} {r' : Reader} : Reads step m r.unread [v] .start r'.unread →
      Done r' v es rs → Ends r m es rs r'
  /-- An item cannot be read. -/
  | fails {m' : Machine} {u : Str} {e : Str} {r' : Reader} : Reads step m r.unread [] m' u →
      step m' u = .fail e → Failed r' e es rs → Ends r m es rs r'

/-- **What a call returns.** -/
inductive Returns (r : Reader) (m : Machine) (es : List ℕ) (rs : List Reply) :
    Status × Option ℕ × Reader → Prop
  /-- No reply, and the machine waits. -/
  | waits {m' : Machine} {r' : Reader} : Reads step m r.unread [] m' r'.unread →
      step m' r'.unread = .wait → Resting r' m' es rs → Returns r m es rs (.ok, none, r')
  /-- A reply, which the caller holds. -/
  | returns {v : Reply} {p : ℕ} {r' : Reader} {ns : List ℕ} :
      Reads step m r.unread [v] .start r'.unread → Holds r'.heap.obj p v ns →
      Idle r' (es ++ [p]) (rs ++ [v]) → Returns r m es rs (.ok, some p, r')
  /-- An error. -/
  | fails {m' : Machine} {u : Str} {e : Str} {r' : Reader} : Reads step m r.unread [] m' u →
      step m' u = .fail e → Failed r' e es rs → Returns r m es rs (.err, none, r')

section

variable {r r' r'' : Reader} {m m' : Machine} {es : List ℕ} {rs : List Reply} {fuel : ℕ} {v : Reply}

/-- A machine that waits for more of something waits for anything. -/
theorem step_nil_of_wait {u : Str} (h : step m u = .wait) : step m [] = .wait := by
  cases hs : step m [] with
  | wait => rfl
  | next n m' o => exact absurd (h.symm.trans (steady_step.next hs u)) (by simp)
  | fail e => exact absurd (h.symm.trans (steady_step.fail hs u)) (by simp)

theorem Ends.trans (hread : Reads step m r.unread [] m' r'.unread) (h : Ends r' m' es rs r'') :
    Ends r m es rs r'' := by
  cases h with
  | waits hread' hwait hr => exact .waits (hread.trans hread') hwait hr
  | returns hread' hr => exact .returns (hread.trans hread') hr
  | fails hread' hfail hr => exact .fails (hread.trans hread') hfail hr

/-- **The loop over the items** ends, since each takes something of the buffer. -/
theorem Parsing.processItems_ends (hr : Parsing r m es rs) (hfuel : r.unread.length < fuel) :
    ∃ r', processItems fuel r = .ok r' ∧ Ends r m es rs r' := by
  induction fuel generalizing r m with
  | zero => exact absurd hfuel (Nat.not_lt_zero _)
  | succ fuel ih =>
    have hridx : 0 ≤ r.ridx := by
      obtain ⟨t, ps, ns, ks, hw, -⟩ := hr
      rw [hw.ridx]
      exact Int.natCast_nonneg _
    obtain ⟨s, r', hitem, hcomes⟩ := hr.processItem_comes
    rw [processItems, if_pos hridx, hitem, ok_bind]
    cases hcomes with
    | waits hread hwait hr' => exact ⟨r', rfl, .waits hread hwait hr'⟩
    | fails hread hfail hr' => exact ⟨r', rfl, .fails hread hfail hr'⟩
    | @reads m' o _ hread hlt hr' =>
      have hfuel' : r'.unread.length < fuel := by omega
      cases o with
      | none =>
        obtain ⟨r'', hrest, hends⟩ := ih hr' hfuel'
        exact ⟨r'', hrest, hends.trans hread⟩
      | some v =>
        obtain ⟨rfl, hdone⟩ := hr'
        obtain ⟨fuel, rfl⟩ : ∃ k, fuel = k + 1 := ⟨fuel - 1, by omega⟩
        refine ⟨r', ?_, .returns hread hdone⟩
        change processItems (fuel + 1) r' = _
        rw [processItems, if_neg (by rw [hdone.ridx]; decide)]

/-! ### The buffer -/

/-- What has been read is thrown away if it is long enough. -/
def Reader.compact (r : Reader) : Reader :=
  if r.pos ≥ 1024 then { r with buf := sdsrange r.buf (toInt r.pos) (-1), pos := 0 } else r

/-- The buffer with what has not been read alone, or as it was. -/
theorem Reader.compact_eq (hpos : r.pos ≤ r.buf.length) (hroom : r.buf.length < 2 ^ 31) :
    r.compact = r ∨ r.compact = { r with buf := r.unread, pos := 0 } := by
  rw [compact]
  split_ifs
  · rw [sdsrange_drop hpos hroom]
    exact .inr rfl
  · exact .inl rfl

theorem Parsing.compact (hr : Parsing r m es rs) :
    Parsing r.compact m es rs ∧ r.compact.unread = r.unread := by
  obtain ⟨t, ps, ns, ks, hw, htype, hnil, hb, hm⟩ := id hr
  rcases Reader.compact_eq hw.pos hw.room with heq | heq
  · rw [heq]
    exact ⟨hr, rfl⟩
  · rw [heq]
    have hlen := r.length_unread
    have hroom := hw.room
    refine ⟨⟨t, ps, ns, ks, ⟨hw.err, Nat.zero_le _, ?_, hw.length, hw.ridx, hw.depth, hw.stack,
      hw.task, hw.reply⟩, htype, hnil, hb, hm⟩, rfl⟩
    change r.unread.length < _
    omega

theorem Done.compact (hr : Done r v es rs) :
    Done r.compact v es rs ∧ r.compact.unread = r.unread := by
  rcases Reader.compact_eq hr.pos hr.room with heq | heq
  · rw [heq]
    exact ⟨hr, rfl⟩
  · rw [heq]
    have hlen := r.length_unread
    have hroom := hr.room
    refine ⟨⟨hr.err, Nat.zero_le _, ?_, hr.length, hr.ridx, hr.reply⟩, rfl⟩
    change r.unread.length < _
    omega

/-! ### A call -/

/-- The caller is given the reply. -/
theorem Done.idle (hr : Done r v es rs) :
    ∃ p ns, r.reply = some p ∧ Holds r.heap.obj p v ns ∧
      Idle { r with reply := none } (es ++ [p]) (rs ++ [v]) := by
  obtain ⟨p, ns, ks, hreply, hv, hm⟩ := hr.reply
  have hm' : Memory r.heap (ns ++ []) es rs ks := by rwa [List.append_nil]
  exact ⟨p, ns, hreply, hv, hr.err, hr.pos, hr.room, hr.length, hr.ridx, rfl, _, hm'.give hv⟩

/-- What the call does when it has read items. -/
theorem Ends.returns_of {fuel : ℕ} {r₁ : Reader} (hunread : r₁.unread = r.unread)
    (hitems : processItems fuel r₁ = .ok r') (hends : Ends r₁ m es rs r') :
    ∃ x, (do
      let r ← processItems fuel r₁
      if r.err.isSome then .ok (.err, none, r)
      else
        let r := r.compact
        if r.ridx = -1 then .ok (.ok, r.reply, { r with reply := none })
        else .ok (.ok, none, r) : Except Fault (Status × Option ℕ × Reader)) = .ok x ∧
      Returns r m es rs x := by
  rw [hitems, ok_bind]
  cases hends with
  | waits hread hwait hr =>
    obtain ⟨hr', hsame⟩ := hr.compact
    obtain ⟨t, ps, ns, ks, hw, -⟩ := id hr'
    have herr : r'.err = none := by
      obtain ⟨t, ps, ns, ks, hw, -⟩ := hr
      exact hw.err
    rw [hunread] at hread
    rw [herr, if_neg (by simp)]
    dsimp only
    rw [if_neg (by rw [hw.ridx]; omega)]
    exact ⟨_, rfl, .waits (hsame ▸ hread) (hsame ▸ hwait) (.inr ⟨hr', step_nil_of_wait hwait⟩)⟩
  | returns hread hr =>
    obtain ⟨hr', hsame⟩ := hr.compact
    obtain ⟨p, ns, hreply, hv, hidle⟩ := hr'.idle
    rw [hunread, ← hsame] at hread
    rw [hr.err, if_neg (by simp)]
    dsimp only
    rw [if_pos hr'.ridx, hreply]
    exact ⟨_, rfl, .returns hread hv hidle⟩
  | fails hread hfail hr =>
    rw [hunread] at hread
    rw [hr.err]
    exact ⟨_, rfl, .fails hread hfail hr⟩

/-- A reply is begun. -/
theorem Idle.begin (hr : Idle r es rs) :
    ∃ r', r.setTask 0 ⟨none, -1, -1, none, none⟩ = .ok r' ∧
      ({ r' with ridx := 0 } : Reader).unread = r.unread ∧
      r'.buf.length - r'.pos = r.unread.length ∧ Parsing { r' with ridx := 0 } .start es rs := by
  obtain ⟨ks, hm⟩ := hr.memory
  have hlen := hr.length
  have hset : r.setTask 0 ⟨none, -1, -1, none, none⟩ =
      .ok { r with rstack := r.rstack.set 0 ⟨none, -1, -1, none, none⟩ } := by
    rw [Reader.setTask, if_pos le_rfl, put, if_pos (by change 0 < _; omega)]
    rfl
  refine ⟨_, hset, rfl, r.length_unread.symm, ⟨none, -1, -1, none, none⟩, [], [], ks, ?_, rfl,
    by simp [Machine.start], .nil, hm⟩
  exact ⟨hr.err, hr.pos, hr.room, by rw [List.length_set, hlen], rfl, Nat.zero_le _, .nil,
    ⟨List.getElem?_set_self (by omega), rfl, rfl⟩, hr.reply⟩

/-- Where the buffer is empty nothing is left to be read. -/
theorem Reader.unread_of_length (h : r.buf.length = 0) : r.unread = [] := by
  rw [unread, List.eq_nil_of_length_eq_zero h, List.drop_nil]

/-- **A call of `redisReaderGetReply`** does not fault, and it does what the machine does. -/
theorem Resting.redisReaderGetReply_returns (hr : Resting r m es rs) :
    ∃ x, redisReaderGetReply r = .ok x ∧ Returns r m es rs x := by
  rcases hr with ⟨rfl, hr⟩ | ⟨hr, hwait⟩
  · rw [redisReaderGetReply, hr.err, if_neg (by simp)]
    by_cases hempty : r.buf.length = 0
    · rw [if_pos hempty]
      refine ⟨_, rfl, .waits .nil ?_ (.inl ⟨rfl, hr⟩)⟩
      rw [Reader.unread_of_length hempty]
      rfl
    · obtain ⟨r', hset, hunread, hfuel, hbegun⟩ := hr.begin
      obtain ⟨r'', hitems, hends⟩ := hbegun.processItems_ends
        (show _ < r'.buf.length - r'.pos + 1 by rw [hunread, hfuel]; exact Nat.lt_succ_self _)
      rw [if_neg hempty, if_pos hr.ridx, hset]
      simp only [ok_bind]
      exact hends.returns_of hunread hitems
  · obtain ⟨t, ps, ns, ks, hw, -⟩ := id hr
    rw [redisReaderGetReply, hw.err, if_neg (by simp)]
    by_cases hempty : r.buf.length = 0
    · rw [if_pos hempty]
      refine ⟨_, rfl, .waits .nil ?_ (.inr ⟨hr, hwait⟩)⟩
      rwa [Reader.unread_of_length hempty]
    · obtain ⟨r', hitems, hends⟩ := hr.processItems_ends
        (show _ < r.buf.length - r.pos + 1 by rw [r.length_unread]; exact Nat.lt_succ_self _)
      rw [if_neg hempty, if_neg (by rw [hw.ridx]; omega)]
      simp only [ok_bind]
      exact hends.returns_of rfl hitems

end

end Hiredis

end BackendStudy
