import BackendStudy.Lib.Runs
import BackendStudy.Redis.Model

/-!
# The connection of a `RedisConn`

`Init` connects, authenticates if there is a password, and selects a database; the methods for
data send one command each over the connection that `m_pContext` has. A connection is modelled
with what has been sent over it, and the answers (`BackendStudy.Redis.Context`): after an error
nothing more is sent over it, and `redisCommand` returns no reply. What the server answers is
part of each call.

The methods for data differ in the command and in what they make of the reply
(`BackendStudy.Redis.RedisConn.onContext`). A run is a sequence of calls, with the database and
the password of the last `Init` that has not been rejected kept beside `m_pContext`
(`BackendStudy.Redis.RedisConn.State`).
-/

namespace BackendStudy

namespace Redis

open Slots

/-- `redisContext`, with the arguments of each command that has been sent and its reply. -/
structure Context where
  /-- There has been an error. -/
  err : Bool
  /-- What has been sent and answered. -/
  sent : List (List Str × Option Reply)

section

variable {ν : Type}

/-- `redisCommand`, with what the server answers if the command is sent. A format error is an
error of the connection, and so is no answer. -/
def Context.redisCommand (vprintf : Str → ν → Str) (c : Context) (format : Str)
    (ap : List (VaArg ν)) (answer : Option Reply) : Except Fault (Context × Option Reply) := do
  match ← formatArgv vprintf format ap with
  | none => .ok ({ c with err := true }, none)
  | some argv =>
    if c.err then .ok (c, none)
    else .ok (⟨answer.isNone, c.sent ++ [(argv, answer)]⟩, answer)

namespace RedisConn

/-! ### `Init` and `DeInit` -/

/-- What `redisConnectWithTimeout` comes to. -/
inductive Connect
  /-- There is no context. -/
  | null
  /-- There is one with an error. -/
  | error
  /-- There is a connection. -/
  | ok
  deriving DecidableEq

/-- `DeInit`. -/
def deInit : Option Context → Option Context
  | some _ => none
  | none => none

/-- The name of the command that authenticates. -/
def auth : Str := ['A', 'U', 'T', 'H']

/-- The name of the command that selects a database. -/
def select : Str := ['S', 'E', 'L', 'E', 'C', 'T']

/-- A string argument in a format. -/
def text : Str := [' ', '%', 's']

variable (vprintf : Str → ν → Str)

/-- The part of `Init` that selects the database. -/
def selectDb (c : Context) (dbIndex : ν) (answer : Option Reply) :
    Except Fault (Option Context × Bool) := do
  let (c, reply) ← c.redisCommand vprintf (select ++ [' ', '%', 'd']) [.number .int dbIndex] answer
  .ok (some c, getReplyStatus reply)

/-- `Init`, with what connecting comes to and the answers of the server: the connection and what
is returned. -/
def init (m_pContext : Option Context) (dbIndex : ν) (password : Str) (connect : Connect)
    (authAnswer selectAnswer : Option Reply) : Except Fault (Option Context × Bool) :=
  match m_pContext with
  | some c => .ok (some c, false)
  | none =>
    match connect with
    | .null => .ok (none, false)
    | .error => .ok (deInit (some ⟨true, []⟩), false)
    | .ok =>
      if password.isEmpty then selectDb vprintf ⟨false, []⟩ dbIndex selectAnswer
      else do
        let (c, reply) ← Context.redisCommand vprintf ⟨false, []⟩ (auth ++ text) [.text password]
          authAnswer
        if getReplyStatus reply then selectDb vprintf c dbIndex selectAnswer
        else .ok (deInit (some c), false)

/-! ### The methods for data -/

/-- What all methods for data do: without a connection they return a default, and otherwise what
they read from the reply to a command. -/
def onContext {α : Type} (default : α) (read : Option Reply → Except Fault α)
    (m_pContext : Option Context) (format : Str) (ap : List (VaArg ν)) (answer : Option Reply) :
    Except Fault (Option Context × α) :=
  match m_pContext with
  | none => .ok (none, default)
  | some c => do
    let (c, reply) ← c.redisCommand vprintf format ap answer
    let value ← read reply
    .ok (some c, value)

/-- `getReplyString`. -/
def replyString : Option Reply → Str
  | none => []
  | some reply => getReplyString reply

/-- The loop of `getReplyMap` over the fields of a hash and their values. -/
def fillFields : List Reply → (Str → Option Str) → Except Fault (Str → Option Str)
  | [], values => .ok values
  | [_], _ => .error .outOfRange
  | key :: value :: element, values =>
    fillFields element
      (Function.update values (getReplyString key) (some (getReplyString value)))

/-- `getReplyMap`, of a hash. -/
def replyFields (reply : Option Reply) (values : Str → Option Str) :
    Except Fault (Bool × (Str → Option Str)) :=
  match reply with
  | none => .ok (false, values)
  | some reply =>
    if reply.type = .array then do
      let values ← fillFields reply.element values
      .ok (true, values)
    else .ok (false, values)

/-- `getReplyStringList`. -/
def replyStringList (reply : Option Reply) (values : List Str) : Bool × List Str :=
  match reply with
  | none => (false, values)
  | some reply =>
    if reply.type = .array then (true, reply.element.map getReplyString) else (false, [])

/-- The methods that return whether the status is good. -/
def statusMethod (ctx : Option Context) (format : Str) (ap : List (VaArg ν))
    (answer : Option Reply) : Except Fault (Option Context × Bool) :=
  onContext vprintf false (fun reply => .ok (getReplyStatus reply)) ctx format ap answer

/-- The methods that return a number. -/
def intMethod (ctx : Option Context) (format : Str) (ap : List (VaArg ν))
    (answer : Option Reply) : Except Fault (Option Context × ℤ) :=
  onContext vprintf 0 (fun reply => .ok (getReplyInt reply)) ctx format ap answer

/-- The methods that return whether a number is not zero. -/
def boolMethod (ctx : Option Context) (format : Str) (ap : List (VaArg ν))
    (answer : Option Reply) : Except Fault (Option Context × Bool) :=
  onContext vprintf false (fun reply => .ok (getReplyInt reply ≠ 0)) ctx format ap answer

/-- The methods that return a string. -/
def stringMethod (ctx : Option Context) (format : Str) (ap : List (VaArg ν))
    (answer : Option Reply) : Except Fault (Option Context × Str) :=
  onContext vprintf [] (fun reply => .ok (replyString reply)) ctx format ap answer

/-- `isExists`. -/
def isExists (ctx : Option Context) (key : Str) (answer : Option Reply) :=
  boolMethod vprintf ctx (['E', 'X', 'I', 'S', 'T', 'S'] ++ text) [.text key] answer

/-- `del`, of one key. -/
def del (ctx : Option Context) (key : Str) (answer : Option Reply) :=
  intMethod vprintf ctx (['D', 'E', 'L'] ++ text) [.text key] answer

/-- `del`, of several keys. -/
def delAll (ctx : Option Context) (keys : List Str) (answer : Option Reply) :=
  intMethod vprintf ctx (cStr (delCommand keys)) [] answer

/-- `flushdb`. -/
def flushdb (ctx : Option Context) (answer : Option Reply) :=
  statusMethod vprintf ctx ['F', 'L', 'U', 'S', 'H', 'D', 'B'] [] answer

/-- `get`. -/
def get (ctx : Option Context) (key : Str) (answer : Option Reply) :=
  stringMethod vprintf ctx (['G', 'E', 'T'] ++ text) [.text key] answer

/-- `set`. -/
def set (ctx : Option Context) (key value : Str) (answer : Option Reply) :=
  statusMethod vprintf ctx (['S', 'E', 'T'] ++ text ++ text) [.text key, .text value] answer

/-- `setex`. -/
def setex (ctx : Option Context) (key : Str) (seconds : ν) (value : Str)
    (answer : Option Reply) :=
  statusMethod vprintf ctx (['S', 'E', 'T', 'E', 'X'] ++ text ++ [' ', '%', 'd'] ++ text)
    [.text key, .number .int seconds, .text value] answer

/-- `setnx`. -/
def setnx (ctx : Option Context) (key value : Str) (answer : Option Reply) :=
  boolMethod vprintf ctx (['S', 'E', 'T', 'N', 'X'] ++ text ++ text) [.text key, .text value]
    answer

/-- `mset`. -/
def mset (ctx : Option Context) (kvs : KeyValues) (answer : Option Reply) :
    Except Fault (Option Context × Bool) :=
  if ctx.isNone || kvs.entries.isEmpty then .ok (ctx, false)
  else statusMethod vprintf ctx (cStr (msetCommand kvs)) [] answer

/-- `mget`. -/
def mget (ctx : Option Context) (keys : List Str) (values : Str → Option Str)
    (answer : Option Reply) : Except Fault (Option Context × Bool × (Str → Option Str)) :=
  if ctx.isNone || keys.isEmpty then .ok (ctx, false, values)
  else
    onContext vprintf (false, values) (fun reply => getReplyMap reply keys fun _ => none) ctx
      (cStr (mgetCommand keys)) [] answer

/-- `incr`. -/
def incr (ctx : Option Context) (key : Str) (answer : Option Reply) :=
  intMethod vprintf ctx (['I', 'N', 'C', 'R'] ++ text) [.text key] answer

/-- `decr`. -/
def decr (ctx : Option Context) (key : Str) (answer : Option Reply) :=
  intMethod vprintf ctx (['D', 'E', 'C', 'R'] ++ text) [.text key] answer

/-- `lpush`. -/
def lpush (ctx : Option Context) (key value : Str) (answer : Option Reply) :=
  intMethod vprintf ctx (['L', 'P', 'U', 'S', 'H'] ++ text ++ text) [.text key, .text value]
    answer

/-- `rpush`. -/
def rpush (ctx : Option Context) (key value : Str) (answer : Option Reply) :=
  intMethod vprintf ctx (['R', 'P', 'U', 'S', 'H'] ++ text ++ text) [.text key, .text value]
    answer

/-- `lpop`. -/
def lpop (ctx : Option Context) (key : Str) (answer : Option Reply) :=
  stringMethod vprintf ctx (['L', 'P', 'O', 'P'] ++ text) [.text key] answer

/-- `rpop`. -/
def rpop (ctx : Option Context) (key : Str) (answer : Option Reply) :=
  stringMethod vprintf ctx (['R', 'P', 'O', 'P'] ++ text) [.text key] answer

/-- `llen`. -/
def llen (ctx : Option Context) (key : Str) (answer : Option Reply) :=
  intMethod vprintf ctx (['L', 'L', 'E', 'N'] ++ text) [.text key] answer

/-- `lrange`. -/
def lrange (ctx : Option Context) (key : Str) (first last : ν) (values : List Str)
    (answer : Option Reply) :=
  onContext vprintf (false, values) (fun reply => .ok (replyStringList reply values)) ctx
    (['L', 'R', 'A', 'N', 'G', 'E'] ++ text ++ [' ', '%', 'l', 'd'] ++ [' ', '%', 'l', 'd'])
    [.text key, .number .long first, .number .long last] answer

/-- `hget`. -/
def hget (ctx : Option Context) (key field : Str) (answer : Option Reply) :=
  stringMethod vprintf ctx (['H', 'G', 'E', 'T'] ++ text ++ text) [.text key, .text field] answer

/-- `hset`. -/
def hset (ctx : Option Context) (key field value : Str) (answer : Option Reply) :=
  intMethod vprintf ctx (['H', 'S', 'E', 'T'] ++ text ++ text ++ text)
    [.text key, .text field, .text value] answer

/-- `hdel`. -/
def hdel (ctx : Option Context) (key field : Str) (answer : Option Reply) :=
  intMethod vprintf ctx (['H', 'D', 'E', 'L'] ++ text ++ text) [.text key, .text field] answer

/-- `hgetAll`. -/
def hgetAll (ctx : Option Context) (key : Str) (values : Str → Option Str)
    (answer : Option Reply) :=
  onContext vprintf (false, values) (fun reply => replyFields reply fun _ => none) ctx
    (['H', 'G', 'E', 'T', 'A', 'L', 'L'] ++ text) [.text key] answer

/-- A call of a method for data. -/
inductive DataCall (ν : Type)
  /-- `isExists`. -/
  | isExists (key : Str)
  /-- `del`, of one key. -/
  | del (key : Str)
  /-- `del`, of several keys. -/
  | delAll (keys : List Str)
  /-- `flushdb`. -/
  | flushdb
  /-- `get`. -/
  | get (key : Str)
  /-- `set`. -/
  | set (key value : Str)
  /-- `setex`. -/
  | setex (key : Str) (seconds : ν) (value : Str)
  /-- `setnx`. -/
  | setnx (key value : Str)
  /-- `mset`. -/
  | mset (kvs : KeyValues)
  /-- `mget`. -/
  | mget (keys : List Str) (values : Str → Option Str)
  /-- `incr`. -/
  | incr (key : Str)
  /-- `decr`. -/
  | decr (key : Str)
  /-- `lpush`. -/
  | lpush (key value : Str)
  /-- `rpush`. -/
  | rpush (key value : Str)
  /-- `lpop`. -/
  | lpop (key : Str)
  /-- `rpop`. -/
  | rpop (key : Str)
  /-- `llen`. -/
  | llen (key : Str)
  /-- `lrange`. -/
  | lrange (key : Str) (first last : ν) (values : List Str)
  /-- `hget`. -/
  | hget (key field : Str)
  /-- `hset`. -/
  | hset (key field value : Str)
  /-- `hdel`. -/
  | hdel (key field : Str)
  /-- `hgetAll`. -/
  | hgetAll (key : Str) (values : Str → Option Str)

/-- What a call of a method for data leaves of the connection. -/
def DataCall.run (ctx : Option Context) (answer : Option Reply) :
    DataCall ν → Except Fault (Option Context)
  | .isExists key => (RedisConn.isExists vprintf ctx key answer).map Prod.fst
  | .del key => (RedisConn.del vprintf ctx key answer).map Prod.fst
  | .delAll keys => (RedisConn.delAll vprintf ctx keys answer).map Prod.fst
  | .flushdb => (RedisConn.flushdb vprintf ctx answer).map Prod.fst
  | .get key => (RedisConn.get vprintf ctx key answer).map Prod.fst
  | .set key value => (RedisConn.set vprintf ctx key value answer).map Prod.fst
  | .setex key seconds value =>
    (RedisConn.setex vprintf ctx key seconds value answer).map Prod.fst
  | .setnx key value => (RedisConn.setnx vprintf ctx key value answer).map Prod.fst
  | .mset kvs => (RedisConn.mset vprintf ctx kvs answer).map Prod.fst
  | .mget keys values => (RedisConn.mget vprintf ctx keys values answer).map Prod.fst
  | .incr key => (RedisConn.incr vprintf ctx key answer).map Prod.fst
  | .decr key => (RedisConn.decr vprintf ctx key answer).map Prod.fst
  | .lpush key value => (RedisConn.lpush vprintf ctx key value answer).map Prod.fst
  | .rpush key value => (RedisConn.rpush vprintf ctx key value answer).map Prod.fst
  | .lpop key => (RedisConn.lpop vprintf ctx key answer).map Prod.fst
  | .rpop key => (RedisConn.rpop vprintf ctx key answer).map Prod.fst
  | .llen key => (RedisConn.llen vprintf ctx key answer).map Prod.fst
  | .lrange key first last values =>
    (RedisConn.lrange vprintf ctx key first last values answer).map Prod.fst
  | .hget key field => (RedisConn.hget vprintf ctx key field answer).map Prod.fst
  | .hset key field value => (RedisConn.hset vprintf ctx key field value answer).map Prod.fst
  | .hdel key field => (RedisConn.hdel vprintf ctx key field answer).map Prod.fst
  | .hgetAll key values => (RedisConn.hgetAll vprintf ctx key values answer).map Prod.fst

/-! ### Calls -/

/-- A call of a method of a `RedisConn`, with what comes of it outside. -/
inductive Call (ν : Type)
  /-- `Init`. -/
  | init (dbIndex : ν) (password : Str) (connect : Connect)
    (authAnswer selectAnswer : Option Reply)
  /-- `DeInit`. -/
  | deInit
  /-- A method for data. -/
  | data (d : DataCall ν) (answer : Option Reply)

/-- A `RedisConn`, with the database and the password of the last `Init` that it has not
rejected. -/
structure State (ν : Type) where
  /-- `m_pContext`. -/
  context : Option Context
  /-- The arguments of the last `Init` without a connection. -/
  asked : Option (ν × Str)

/-- A `RedisConn` that has been constructed. -/
def State.start : State ν := ⟨none, none⟩

/-- One call. -/
def State.call (s : State ν) : Call ν → Except Fault (State ν)
  | .init dbIndex password connect authAnswer selectAnswer => do
    let (ctx, _) ← RedisConn.init vprintf s.context dbIndex password connect authAnswer
      selectAnswer
    .ok ⟨ctx, if s.context.isNone then some (dbIndex, password) else s.asked⟩
  | .deInit => .ok { s with context := RedisConn.deInit s.context }
  | .data d answer => do
    let ctx ← d.run vprintf s.context answer
    .ok { s with context := ctx }

/-- A call as a step. -/
def Step (s : State ν) (i : Call ν) (s' : State ν) : Prop := s.call vprintf i = .ok s'

end RedisConn

end

end Redis

end BackendStudy
