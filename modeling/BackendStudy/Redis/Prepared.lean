import BackendStudy.Redis.Connection
import BackendStudy.Redis.Format

/-!
# Which connections commands run on

A connection is prepared for a database and a password if the first things sent over it were the
password, if there is one, and the database, and both were answered well
(`BackendStudy.Redis.RedisConn.Prepared`). What the methods for data send keeps it so, since each
sends its own command (`BackendStudy.Redis.RedisConn.DataCall.run_uses`).

An `Init` that authenticates and does not select returns `false` and keeps the connection
(`BackendStudy.Redis.RedisConn.init_spec`). Without such a call commands run on connections that
are prepared as the last `Init` asked, and with one they do not
(`BackendStudy.Redis.RedisConn.run_prepared_iff`).
-/

namespace BackendStudy

namespace Redis

open Slots

section

variable {ν : Type} {vprintf : Str → ν → Str} {s s' : Scan} {ap ap' : List (VaArg ν)}
  {c x a name format : Str} {k : ℕ} {args argv l : List Str}

/-! ### The name of a command -/

/-- What is complete stays in front. -/
theorem directive_curargv (h : directive vprintf c s ap = .ok (some (s', ap', k))) :
    s'.curargv = s.curargv := by
  unfold directive at h
  split at h
  · cases hv : vaText ap with
    | error e => simp [hv] at h
    | ok r =>
      rw [hv] at h
      obtain ⟨rfl, -, -⟩ : s.cat (cStr r.1) = s' ∧ r.2 = ap' ∧ 1 = k := by simpa using h
      rfl
  · cases hv : vaText ap with
    | error e => simp [hv] at h
    | ok r =>
      cases hs : vaSize r.2 with
      | error e => simp [hv, hs] at h
      | ok n =>
        simp only [hv, hs, ok_bind] at h
        split_ifs at h
        obtain ⟨rfl, -, -⟩ : s.cat (r.1.take n.1) = s' ∧ n.2 = ap' ∧ 1 = k := by simpa using h
        rfl
  · obtain ⟨rfl, -, -⟩ : s.cat ['%'] = s' ∧ ap = ap' ∧ 1 = k := by simpa using h
    rfl
  · split at h
    · simp at h
    · next ty p hc =>
      cases hv : vaNumber ty ap with
      | error e => simp [hv] at h
      | ok r =>
        simp only [hv, ok_bind] at h
        split_ifs at h
        all_goals
          simp only [Except.ok.injEq, Option.some.injEq, Prod.mk.injEq] at h
          obtain ⟨rfl, -, -⟩ := h
          rfl

/-- The first argument, once complete, is the first argument of the command. -/
theorem formatLoop_head (hs : s.curargv = x :: l)
    (h : formatLoop vprintf k c s ap = .ok (some argv)) : argv.head? = some x := by
  induction c generalizing k s ap l with
  | nil =>
    cases k with
    | zero =>
      obtain rfl : s.argv = argv := by simpa [formatLoop] using h
      unfold Scan.argv
      split_ifs <;> simp [hs]
    | succ k => simp [formatLoop] at h
  | cons y c ih =>
    cases k with
    | succ k => exact ih hs h
    | zero =>
      rw [formatLoop] at h
      split_ifs at h with hlit hspace
      · have hspace : ∃ l', s.space.curargv = x :: l' := by
          unfold Scan.space
          split_ifs <;> simp [hs]
        obtain ⟨l', hl'⟩ := hspace
        exact ih hl' h
      · exact ih (s := s.cat [y]) hs h
      · cases hd : directive vprintf c s ap with
        | error e => simp [hd] at h
        | ok r =>
          rw [hd, ok_bind] at h
          rcases r with _ | ⟨s', ap', k⟩
          · simp at h
          · exact ih ((directive_curargv hd).trans hs) h

/-- Text without spaces and directives is appended. -/
theorem formatLoop_name (ha : a ≠ []) (hsp : ' ' ∉ a) (hpc : '%' ∉ a) :
    formatLoop vprintf 0 (a ++ c) s ap = formatLoop vprintf 0 c (s.cat a) ap := by
  induction a generalizing s with
  | nil => exact absurd rfl ha
  | cons x a ih =>
    have hx : x ≠ ' ' := fun he => hsp (he ▸ List.mem_cons_self)
    have hlit : x ≠ '%' := fun he => hpc (he ▸ List.mem_cons_self)
    rw [List.cons_append, formatLoop, if_pos (Or.inl hlit), if_neg hx]
    by_cases hnil : a = []
    · rw [hnil]
      rfl
    · rw [ih hnil (fun hm => hsp (List.mem_cons_of_mem _ hm))
        fun hm => hpc (List.mem_cons_of_mem _ hm)]
      simp [Scan.cat]

namespace RedisConn

/-- **A format that begins with the name of a command**, which is neither of those that `Init`
sends. -/
structure Begins (name format : Str) : Prop where
  ne_nil : name ≠ []
  space : ' ' ∉ name
  percent : '%' ∉ name
  auth : name ≠ RedisConn.auth
  select : name ≠ RedisConn.select
  first : name <+: format
  next : ∀ x ∈ (format.drop name.length).head?, x = ' '

instance (name format : Str) : Decidable (Begins name format) :=
  decidable_of_iff (name ≠ [] ∧ ' ' ∉ name ∧ '%' ∉ name ∧ name ≠ RedisConn.auth ∧
      name ≠ RedisConn.select ∧ name <+: format ∧
      (format.drop name.length).head?.all (· = ' ') = true)
    ⟨fun ⟨h₁, h₂, h₃, h₄, h₅, h₆, h₇⟩ => ⟨h₁, h₂, h₃, h₄, h₅, h₆,
        by simpa [Option.all_eq_true] using h₇⟩,
      fun h => ⟨h.ne_nil, h.space, h.percent, h.auth, h.select, h.first,
        by simpa [Option.all_eq_true] using h.next⟩⟩

theorem Begins.head (hb : Begins name format)
    (h : formatArgv vprintf format ap = .ok (some argv)) : argv.head? = some name := by
  obtain ⟨c, rfl⟩ := hb.first
  have hnext := hb.next
  rw [List.drop_left] at hnext
  rw [formatArgv, formatLoop_name hb.ne_nil hb.space hb.percent] at h
  cases c with
  | nil =>
    obtain rfl : [name] = argv := by simpa [formatLoop, Scan.argv, Scan.cat] using h
    rfl
  | cons x c =>
    obtain rfl := hnext x rfl
    rw [formatLoop, if_pos (Or.inl (by decide)), if_pos rfl] at h
    exact formatLoop_head rfl h

theorem begins_buildCommand (hne : name ≠ []) (hsp : ' ' ∉ name) (hpc : '%' ∉ name)
    (hnul : '\x00' ∉ name) (ha : name ≠ auth) (hs : name ≠ select) :
    Begins name (cStr (buildCommand name args)) := by
  have hcut : cStr (buildCommand name args) = name ++ cStr (spaced args) := by
    rw [buildCommand_eq, cStr, List.takeWhile_append_of_pos]
    · rfl
    · intro x hx
      simpa using fun he : x = '\x00' => hnul (he ▸ hx)
  refine ⟨hne, hsp, hpc, ha, hs, hcut ▸ List.prefix_append _ _, ?_⟩
  rw [hcut, List.drop_left]
  intro x hx
  cases args with
  | nil => simp [spaced, cStr] at hx
  | cons b args =>
    have hcons : spaced (b :: args) = ' ' :: (b ++ spaced args) := rfl
    rw [hcons, cStr, List.takeWhile_cons_of_pos (by decide)] at hx
    exact (Option.some.inj hx).symm

/-! ### What the methods for data do with a connection -/

/-- **What a method for data does with a connection**: it may leave it alone, or notice that it
is of no use, or send one command of its own. -/
inductive Uses : Option Context → Option Context → Prop
  /-- Nothing is sent. -/
  | refl (ctx : Option Context) : Uses ctx ctx
  /-- There is no command to send. -/
  | error (c : Context) : Uses (some c) (some { c with err := true })
  /-- A command is sent. -/
  | sent (c : Context) {argv : List Str} {name : Str} (answer : Option Reply) :
      argv.head? = some name → name ≠ auth → name ≠ select →
      Uses (some c) (some ⟨answer.isNone, c.sent ++ [(argv, answer)]⟩)

theorem onContext_uses {α : Type} {d : α} {read : Option Reply → Except Fault α}
    {ctx ctx' : Option Context} {answer : Option Reply} (hb : Begins name format)
    (h : (onContext vprintf d read ctx format ap answer).map Prod.fst = .ok ctx') :
    Uses ctx ctx' := by
  cases ctx with
  | none =>
    obtain rfl : none = ctx' := by simpa [onContext, Except.map] using h
    exact .refl none
  | some c =>
    simp only [onContext, Context.redisCommand] at h
    cases hargv : formatArgv vprintf format ap with
    | error e => simp [hargv, Except.map] at h
    | ok o =>
      cases o with
      -- a format that is not valid breaks the context, and nothing is sent
      | none =>
        simp only [hargv, ok_bind] at h
        cases hread : read none with
        | error e => simp [hread, Except.map] at h
        | ok v =>
          obtain rfl : some { c with err := true } = ctx' := by
            simpa [hread, Except.map] using h
          exact .error c
      | some argv =>
        simp only [hargv, ok_bind] at h
        -- a broken context is left as it is, and another one is used to send the command
        split_ifs at h with herr
        · cases hread : read none with
          | error e => simp [hread, Except.map] at h
          | ok v =>
            obtain rfl : some c = ctx' := by simpa [hread, Except.map] using h
            exact .refl _
        · cases hread : read answer with
          | error e => simp [hread, Except.map] at h
          | ok v =>
            obtain rfl : some ⟨answer.isNone, c.sent ++ [(argv, answer)]⟩ = ctx' := by
              simpa [hread, Except.map] using h
            exact .sent c answer (hb.head hargv) hb.auth hb.select

/-- The name of a command whose format is spelled out is the first word of the format. -/
theorem onContext_uses_literal {α : Type} {d : α} {read : Option Reply → Except Fault α}
    {ctx ctx' : Option Context} {answer : Option Reply}
    (h : (onContext vprintf d read ctx format ap answer).map Prod.fst = .ok ctx')
    (hb : Begins (format.takeWhile (· ≠ ' ')) format) : Uses ctx ctx' := onContext_uses hb h

/-- **No method for data authenticates or selects.** -/
theorem DataCall.run_uses {d : DataCall ν} {ctx ctx' : Option Context} {answer : Option Reply}
    (h : d.run vprintf ctx answer = .ok ctx') : Uses ctx ctx' := by
  cases d with
  | delAll keys =>
    simp only [DataCall.run, RedisConn.delAll, intMethod] at h
    exact onContext_uses (begins_buildCommand (by decide) (by decide) (by decide) (by decide)
      (by decide) (by decide)) h
  | mset kvs =>
    simp only [DataCall.run, RedisConn.mset] at h
    split_ifs at h with hno
    · obtain rfl : ctx = ctx' := by simpa [Except.map] using h
      exact .refl ctx
    · exact onContext_uses (begins_buildCommand (by decide) (by decide) (by decide) (by decide)
        (by decide) (by decide)) h
  | mget keys values =>
    simp only [DataCall.run, RedisConn.mget] at h
    split_ifs at h with hno
    · obtain rfl : ctx = ctx' := by simpa [Except.map] using h
      exact .refl ctx
    · exact onContext_uses (begins_buildCommand (by decide) (by decide) (by decide) (by decide)
        (by decide) (by decide)) h
  | _ =>
    simp only [DataCall.run, RedisConn.isExists, RedisConn.del, RedisConn.flushdb, RedisConn.get,
      RedisConn.set, RedisConn.setex, RedisConn.setnx, RedisConn.incr, RedisConn.decr,
      RedisConn.lpush, RedisConn.rpush, RedisConn.lpop, RedisConn.rpop, RedisConn.llen,
      RedisConn.lrange, RedisConn.hget, RedisConn.hset, RedisConn.hdel, RedisConn.hgetAll,
      statusMethod, intMethod, boolMethod, stringMethod] at h
    exact onContext_uses_literal h (by decide)

/-! ### What `Init` makes of a connection -/

/-- What `Init` sends for a database and a password. -/
def greeting (vprintf : Str → ν → Str) (asked : ν × Str) : List (List Str) :=
  (if asked.2.isEmpty then [] else [[auth, cStr asked.2]]) ++
    [[select, vprintf ['%', 'd'] asked.1]]

/-- **A prepared connection**: what `Init` sends has been sent and answered well, and nothing
sent later authenticates or selects. -/
structure Prepared (vprintf : Str → ν → Str) (asked : ν × Str) (c : Context) : Prop where
  split : ∃ hello later, c.sent = hello ++ later ∧ hello.map Prod.fst = greeting vprintf asked ∧
    (∀ x ∈ hello, getReplyStatus x.2 = true) ∧
    ∀ x ∈ later, x.1.head? ≠ some auth ∧ x.1.head? ≠ some select

theorem Prepared.uses {asked : ν × Str} {c c' : Context} (hp : Prepared vprintf asked c)
    (h : Uses (some c) (some c')) : Prepared vprintf asked c' := by
  obtain ⟨hello, later, hsent, hhello, hgood, hlater⟩ := hp.split
  cases h with
  | refl => exact hp
  | error => exact ⟨hello, later, hsent, hhello, hgood, hlater⟩
  | @sent c argv name answer hhead ha hs =>
    refine ⟨hello, later ++ [(argv, answer)], by simp [hsent], hhello, hgood, fun x hx => ?_⟩
    rcases List.mem_append.mp hx with hx | hx
    · exact hlater x hx
    · obtain rfl := List.mem_singleton.mp hx
      simp [hhead, ha, hs]

theorem formatArgv_select (dbIndex : ν) :
    formatArgv vprintf (select ++ [' ', '%', 'd']) [.number .int dbIndex] =
      .ok (some [select, vprintf ['%', 'd'] dbIndex]) := rfl

theorem formatArgv_auth (password : Str) :
    formatArgv vprintf (auth ++ text) [.text password] =
      .ok (some [auth, cStr password]) := rfl

theorem selectDb_eq {dbIndex : ν} {answer : Option Reply} {ctx : Context} (herr : ctx.err = false) :
    selectDb vprintf ctx dbIndex answer =
      .ok (some ⟨answer.isNone, ctx.sent ++ [([select, vprintf ['%', 'd'] dbIndex], answer)]⟩,
        getReplyStatus answer) := by
  simp only [selectDb, Context.redisCommand, formatArgv_select, ok_bind, herr]
  rfl

/-- The calls of `Init` that come to the selection of the database. -/
def Reaches (ctx : Option Context) (password : Str) (connect : Connect)
    (authAnswer : Option Reply) : Prop :=
  ctx = none ∧ connect = .ok ∧ (password.isEmpty = true ∨ getReplyStatus authAnswer = true)

/-- **What `Init` does**: it leaves everything as it was and returns `false`, or comes to the
selection, whose answer it returns, and then there is a connection, which is prepared if the
answer was good. -/
theorem init_spec {ctx ctx' : Option Context} {dbIndex : ν} {password : Str} {connect : Connect}
    {authAnswer selectAnswer : Option Reply} {r : Bool}
    (h : init vprintf ctx dbIndex password connect authAnswer selectAnswer = .ok (ctx', r)) :
    (¬Reaches ctx password connect authAnswer ∧ ctx' = ctx ∧ r = false) ∨
      (Reaches ctx password connect authAnswer ∧ r = getReplyStatus selectAnswer ∧
        ∃ c, ctx' = some c ∧ (r = true → Prepared vprintf (dbIndex, password) c)) := by
  cases ctx with
  | some c =>
    obtain ⟨rfl, rfl⟩ : some c = ctx' ∧ false = r := by simpa [init] using h
    exact Or.inl ⟨fun hr => by simp [Reaches] at hr, rfl, rfl⟩
  | none =>
    cases connect with
    | null =>
      obtain ⟨rfl, rfl⟩ : none = ctx' ∧ false = r := by simpa [init] using h
      exact Or.inl ⟨fun hr => by simp [Reaches] at hr, rfl, rfl⟩
    | error =>
      obtain ⟨rfl, rfl⟩ : none = ctx' ∧ false = r := by simpa [init, deInit] using h
      exact Or.inl ⟨fun hr => by simp [Reaches] at hr, rfl, rfl⟩
    | ok =>
      simp only [init] at h
      split_ifs at h with hempty
      · -- there is no password
        rw [selectDb_eq rfl] at h
        obtain ⟨rfl, rfl⟩ := Prod.mk.inj (Except.ok.inj h)
        refine Or.inr ⟨⟨rfl, rfl, Or.inl hempty⟩, rfl, _, rfl, fun hgood => ?_⟩
        exact ⟨_, [], (List.append_nil _).symm, by simp [greeting, hempty], by simpa using hgood,
          by simp⟩
      · simp only [Context.redisCommand, formatArgv_auth, ok_bind, Bool.false_eq_true,
          if_false] at h
        split_ifs at h with hauth
        · -- the password has been answered well, so there has been an answer
          have herr : authAnswer.isNone = false := by
            cases authAnswer with
            | none => simp [getReplyStatus] at hauth
            | some reply => rfl
          rw [selectDb_eq herr] at h
          obtain ⟨rfl, rfl⟩ := Prod.mk.inj (Except.ok.inj h)
          refine Or.inr ⟨⟨rfl, rfl, Or.inr hauth⟩, rfl, _, rfl, fun hgood => ?_⟩
          exact ⟨_, [], (List.append_nil _).symm, by simp [greeting, hempty],
            by simpa [hauth] using hgood, by simp⟩
        -- the password has been refused, and the context is given back
        · obtain ⟨rfl, rfl⟩ : none = ctx' ∧ false = r := by simpa [deInit] using h
          refine Or.inl ⟨?_, rfl, rfl⟩
          rintro ⟨-, -, hpw | hgood⟩
          · exact hempty hpw
          · exact hauth hgood

/-! ### Runs -/

/-- The answer to the selection is good, where a call of `Init` comes to it. -/
def Selected (s : State ν) : Call ν → Prop
  | .init _ password connect authAnswer selectAnswer =>
    Reaches s.context password connect authAnswer → getReplyStatus selectAnswer = true
  | _ => True

/-- **What a call should do**: an `Init` that returns `false` leaves the connection as it was,
and a command is sent only over a connection that is prepared as the last `Init` asked. -/
structure Kept (vprintf : Str → ν → Str) (s : State ν) (i : Call ν) (s' : State ν) : Prop where
  failed : ∀ dbIndex password connect authAnswer selectAnswer,
    i = .init dbIndex password connect authAnswer selectAnswer → ∀ ctx,
    init vprintf s.context dbIndex password connect authAnswer selectAnswer = .ok (ctx, false) →
    s'.context = s.context
  data : ∀ d answer, i = .data d answer → ∀ c c', s.context = some c → s'.context = some c' →
    c'.sent ≠ c.sent → ∃ asked, s.asked = some asked ∧ Prepared vprintf asked c

/-- The invariant: a connection is prepared as the last `Init` asked. -/
def Ready (vprintf : Str → ν → Str) (s : State ν) : Prop :=
  ∀ c, s.context = some c → ∃ asked, s.asked = some asked ∧ Prepared vprintf asked c

variable {t t' : State ν} {i : Call ν}

theorem Ready.step (h : Ready vprintf t) (hok : Selected t i) (hs : Step vprintf t i t') :
    Ready vprintf t' := by
  cases i with
  | init dbIndex password connect authAnswer selectAnswer =>
    rw [Step, State.call] at hs
    cases hinit : init vprintf t.context dbIndex password connect authAnswer selectAnswer with
    | error e => simp [hinit] at hs
    | ok r =>
      obtain ⟨ctx, r⟩ := r
      rw [hinit, ok_bind] at hs
      obtain rfl := Except.ok.inj hs
      -- either the context is as before, or it has just been greeted
      rcases init_spec hinit with ⟨-, rfl, -⟩ | ⟨hreach, hr, c, rfl, hprep⟩
      · intro c hc
        obtain ⟨asked, hasked, hprep⟩ := h c hc
        have hsome : t.context.isNone = false := by simp [show t.context = some c from hc]
        exact ⟨asked, by simp [hsome, hasked], hprep⟩
      · rintro c' hc'
        obtain rfl := Option.some.inj hc'
        exact ⟨(dbIndex, password), by simp [hreach.1], hprep (hr.trans (hok hreach))⟩
  | deInit =>
    obtain rfl := Except.ok.inj hs
    intro c hc
    cases hctx : t.context <;> simp [hctx, deInit] at hc
  | data d answer =>
    rw [Step, State.call] at hs
    cases hrun : d.run vprintf t.context answer with
    | error e => simp [hrun] at hs
    | ok ctx =>
      rw [hrun, ok_bind] at hs
      obtain rfl := Except.ok.inj hs
      intro c hc
      obtain rfl : ctx = some c := hc
      have huses := DataCall.run_uses hrun
      -- a call for data is made on a context that there is, and only adds to what has been sent
      cases hctx : t.context with
      | none =>
        rw [hctx] at huses
        cases huses
      | some c₀ =>
        rw [hctx] at huses
        obtain ⟨asked, hasked, hprep⟩ := h c₀ hctx
        exact ⟨asked, hasked, hprep.uses huses⟩

/-- A call does what it should exactly when the answer to its selection is good. -/
theorem selected_iff (h : Ready vprintf t) (hs : Step vprintf t i t') :
    Selected t i ↔ Kept vprintf t i t' := by
  constructor
  · intro hok
    constructor
    · rintro dbIndex password connect authAnswer selectAnswer rfl ctx hinit
      rw [Step, State.call, hinit, ok_bind] at hs
      obtain rfl := Except.ok.inj hs
      rcases init_spec hinit with ⟨-, hctx, -⟩ | ⟨hreach, hr, -⟩
      · exact hctx
      · exact absurd (hr.trans (hok hreach)) (by simp)
    · rintro d answer rfl c c' hc - -
      exact h c hc
  · intro hkept
    cases i with
    | init dbIndex password connect authAnswer selectAnswer =>
      intro hreach
      by_contra hbad
      rw [Step, State.call] at hs
      cases hinit : init vprintf t.context dbIndex password connect authAnswer selectAnswer with
      | error e => simp [hinit] at hs
      | ok r =>
        obtain ⟨ctx, r⟩ := r
        rcases init_spec hinit with ⟨hnot, -⟩ | ⟨-, rfl, c, rfl, -⟩
        · exact hnot hreach
        · rw [Bool.eq_false_iff.mpr hbad] at hinit
          have hsame := hkept.failed _ _ _ _ _ rfl _ hinit
          rw [hinit, ok_bind] at hs
          obtain rfl := Except.ok.inj hs
          simp [hreach.1] at hsame
    | deInit => exact trivial
    | data d answer => exact trivial

/-- **Commands run on prepared connections, and a failed `Init` changes nothing**, in exactly the
runs in which every `Init` that comes to the selection of its database has a good answer to
it. -/
theorem run_prepared_iff {is : List (Call ν)} :
    Runs.Run (Runs.guard Selected (Step vprintf)) State.start is t ↔
      Runs.Run (fun s i s' => Step vprintf s i s' ∧ Kept vprintf s i s') State.start is t :=
  Runs.run_guard_iff_steps (I := Ready vprintf) (by simp [Ready, State.start])
    (fun _ _ _ hi hok hs => hi.step hok hs) fun _ _ _ hi hs => selected_iff hi hs

/-- What the server answers to a database that it does not have. -/
def outOfRangeReply : Reply :=
  ⟨.error, 0, ['E', 'R', 'R', ' ', 'D', 'B', ' ', 'i', 'n', 'd', 'e', 'x'], []⟩

/-- A good status. -/
def okReply : Reply := ⟨.status, 0, ['O', 'K'], []⟩

/-- **What goes wrong**: `Init` asks for a database that the server does not have, returns
`false` and keeps the connection, and what is set then is set in another database. -/
theorem not_run_prepared_sample : ∃ (is : List (Call ℕ)) (t : State ℕ),
    Runs.Run (Step fun _ => Nat.toDigits 10) State.start is t ∧
      t.context = some ⟨false, [([select, ['1', '6']], some outOfRangeReply),
        ([['S', 'E', 'T'], ['a'], ['1']], some okReply)]⟩ ∧
      ¬Runs.Run (fun s i s' => Step (fun _ => Nat.toDigits 10) s i s' ∧
        Kept (fun _ => Nat.toDigits 10) s i s') State.start is t := by
  have h₀ : Runs.Run (Step fun _ => Nat.toDigits 10) State.start [] State.start := .nil
  have h₁ := h₀.snoc (show Step _ _ (.init 16 [] .ok none (some outOfRangeReply))
    ⟨some ⟨false, [([select, ['1', '6']], some outOfRangeReply)]⟩, some (16, [])⟩ from rfl)
  have h₂ := h₁.snoc (show Step _ _ (.data (.set ['a'] ['1']) (some okReply))
    ⟨some ⟨false, [([select, ['1', '6']], some outOfRangeReply),
      ([['S', 'E', 'T'], ['a'], ['1']], some okReply)]⟩, some (16, [])⟩ from rfl)
  refine ⟨_, _, h₂, rfl, fun h => ?_⟩
  obtain ⟨t₁, h, -⟩ := Runs.run_snoc_iff.mp h
  obtain ⟨t₀, h, hstep, hkept⟩ := Runs.run_snoc_iff.mp h
  obtain rfl := Runs.run_nil_iff.mp h
  obtain rfl := Except.ok.inj hstep
  have hsame := hkept.failed 16 [] .ok none (some outOfRangeReply) rfl _ rfl
  simp [State.start] at hsame

end RedisConn

end

end Redis

end BackendStudy
