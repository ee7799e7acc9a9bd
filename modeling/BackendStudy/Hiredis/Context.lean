import BackendStudy.Hiredis.Commands

/-!
# Connections of hiredis, and the network

A `redisContext` has an output buffer for the commands that have been appended, and a reader for
the replies. `redisGetReply` of a blocking context looks for a reply in the reader, writes the
output buffer, and reads until there is a reply; what the system calls return decides how much is
written and read each time (`BackendStudy.Hiredis.RedisContext.redisBufferWrite`,
`BackendStudy.Hiredis.RedisContext.redisBufferRead`). A call of it is taken apart at its system
calls (`BackendStudy.Hiredis.Client`).

On the other side of the connection is a server, which reads one command after another and
answers each with a reply (`BackendStudy.Hiredis.Server`). What is on its way lies between them.
The client, the server and the network take their steps in any order
(`BackendStudy.Hiredis.System.Step`).
-/

namespace BackendStudy

namespace Hiredis

open Slots Redis Runs

/-! ### `redisContext` -/

/-- `redisContext`. -/
structure RedisContext where
  /-- `err` and `errstr`. -/
  err : Option (ErrType × Str)
  /-- `flags & REDIS_BLOCK`. -/
  block : Bool
  /-- `obuf`. -/
  obuf : Str
  /-- `reader`. -/
  reader : Reader

/-- What `errno` is. -/
inductive Errno
  /-- `EAGAIN`. -/
  | again
  /-- `EINTR`. -/
  | interrupted
  /-- Another one. -/
  | other
  deriving DecidableEq

/-- What `read` returns. -/
inductive ReadResult
  /-- `-1`, with what `errno` is and its description. -/
  | error (errno : Errno) (strerror : Str)
  /-- `0`: the other side has closed the connection. -/
  | closed
  /-- Bytes. -/
  | bytes (bytes : Str)

/-- What `write` returns. -/
inductive WriteResult
  /-- `-1`, with what `errno` is and its description. -/
  | error (errno : Errno) (strerror : Str)
  /-- The number of bytes that have been written. -/
  | written (n : ℕ)

namespace RedisContext

/-- `redisConnectFd`, or another way to get a connection. -/
def connected (block : Bool) (heap : Heap) : RedisContext :=
  ⟨none, block, [], redisReaderCreate heap⟩

/-- `__redisSetError`. -/
def setError (c : RedisContext) (type : ErrType) (str : Str) : RedisContext :=
  { c with err := some (type, str.take 127) }

/-- After `-1` it is tried again, or there is an error. -/
def retry (c : RedisContext) (errno : Errno) (strerror : Str) : Status × RedisContext :=
  if (errno = .again ∧ c.block = false) ∨ errno = .interrupted then (.ok, c)
  else (.err, c.setError .io strerror)

/-- What the reader reports is an error of the connection. -/
def readerError (c : RedisContext) : Status × RedisContext :=
  (.err, match c.reader.err with
    | some (type, str) => c.setError type str
    | none => c)

/-- `redisBufferRead`, with what `read` returns if it is called. -/
def redisBufferRead (c : RedisContext) (nread : ReadResult) : Status × RedisContext :=
  if c.err.isSome then (.err, c)
  else
    match nread with
    | .error errno strerror => c.retry errno strerror
    | .closed => (.err, c.setError .eof "Server closed the connection".toList)
    | .bytes buf =>
      match redisReaderFeed c.reader buf with
      | (.ok, reader) => (.ok, { c with reader := reader })
      | (.err, reader) => readerError { c with reader := reader }

/-- The part of `redisBufferWrite` that writes, with what `write` returns. -/
def writeSome (c : RedisContext) (nwritten : WriteResult) : Status × RedisContext :=
  match nwritten with
  | .error errno strerror => c.retry errno strerror
  | .written n =>
    if 0 < toInt n then
      if toInt n = toInt c.obuf.length then (.ok, { c with obuf := [] })
      else (.ok, { c with obuf := sdsrange c.obuf (toInt n) (-1) })
    else (.ok, c)

/-- What `write` is called with. -/
def offered (c : RedisContext) : Str := if c.err.isSome then [] else c.obuf

/-- `redisBufferWrite`, with what `write` returns if it is called: whether all has been written. -/
def redisBufferWrite (c : RedisContext) (nwritten : WriteResult) : Status × Bool × RedisContext :=
  if c.err.isSome then (.err, false, c)
  else
    match (if c.obuf.length > 0 then c.writeSome nwritten else (.ok, c)) with
    | (.err, c) => (.err, false, c)
    | (.ok, c) => (.ok, c.obuf.length = 0, c)

/-- `redisGetReplyFromReader`. -/
def redisGetReplyFromReader (c : RedisContext) :
    Except Fault (Status × Option ℕ × RedisContext) := do
  match ← redisReaderGetReply c.reader with
  | (.ok, reply, reader) => .ok (.ok, reply, { c with reader := reader })
  | (.err, _, reader) =>
    let (status, c) := readerError { c with reader := reader }
    .ok (status, none, c)

/-- `__redisAppendCommand`. -/
def redisAppendCommand' (c : RedisContext) (cmd : Str) : RedisContext :=
  { c with obuf := c.obuf ++ cmd }

/-- `redisvAppendCommand`. -/
def redisvAppendCommand {ν : Type} (vprintf : Str → ν → Str) (c : RedisContext) (format : Str)
    (ap : List (VaArg ν)) : Except Redis.Fault (Status × RedisContext) := do
  match ← redisvFormatCommand vprintf format ap with
  | none => .ok (.err, c.setError .other "Invalid format string".toList)
  | some cmd => .ok (.ok, c.redisAppendCommand' cmd)

end RedisContext

/-! ### `redisGetReply`, one system call after another -/

/-- Where a call of `redisGetReply` is. -/
inductive Phase
  /-- There is none. -/
  | idle
  /-- In the loop over `redisBufferWrite`. -/
  | writing
  /-- In the loop over `redisBufferRead`. -/
  | reading
  deriving DecidableEq

/-- The client of a connection. -/
structure Client where
  /-- The context. -/
  ctx : RedisContext
  /-- Where `redisGetReply` is. -/
  phase : Phase
  /-- What it has returned last. -/
  last : Option (Status × Option ℕ)

namespace Client

/-- `redisGetReply` returns. -/
def ret (c : Client) (status : Status) (reply : Option ℕ) : Client :=
  { c with phase := .idle, last := some (status, reply) }

/-- `redisGetReply`, up to the first system call. -/
def getReply (c : Client) : Except Fault Client := do
  let (status, aux, ctx) ← c.ctx.redisGetReplyFromReader
  let c := { c with ctx := ctx }
  if status = .err then .ok (c.ret .err none)
  else if aux = none ∧ ctx.block then .ok { c with phase := .writing }
  else .ok (c.ret .ok aux)

/-- A round of the loop that writes. -/
def write (c : Client) (nwritten : WriteResult) : Client :=
  let (status, wdone, ctx) := c.ctx.redisBufferWrite nwritten
  let c := { c with ctx := ctx }
  if status = .err then c.ret .err none
  else if wdone then { c with phase := .reading }
  else c

/-- A round of the loop that reads. -/
def read (c : Client) (nread : ReadResult) : Except Fault Client :=
  let (status, ctx) := c.ctx.redisBufferRead nread
  let c := { c with ctx := ctx }
  if status = .err then .ok (c.ret .err none)
  else do
    let (status, aux, ctx) ← ctx.redisGetReplyFromReader
    let c := { c with ctx := ctx }
    if status = .err then .ok (c.ret .err none)
    else if aux = none then .ok c
    else .ok (c.ret .ok aux)

end Client

end Hiredis

end BackendStudy
