import BackendStudy.Lib.Runs
import BackendStudy.Lib.Streams

/-!
# The reactor of `epollTest_multiport.c`

A client of the server has a `sockitem` with a buffer for what is received and a buffer for what
is sent, and the callback that `main` calls when its socket is ready. The callbacks take turns:
`recv_cb` copies what it has received to the send buffer and hands over to `send_cb`, which sends
it and hands back. What `recv` and `send` return is chosen by the system.

The callbacks do not look at the bytes, so they are modelled for bytes of any type, and in the
runs of a connection (`BackendStudy.Reactor.Step`) each byte that is received carries its number
in the stream.
-/

namespace BackendStudy

namespace Reactor

open Streams

variable {B : Type}

/-- `MAX_BUFFER_SIZE`. -/
def maxBufferSize : ℕ := 1024

/-- A buffer of a `sockitem`. -/
structure Buffer (B : Type) where
  /-- Its bytes. -/
  bytes : List B
  length_eq : bytes.length = maxBufferSize

/-- To write behind the end of a buffer. -/
inductive Fault
  | overrun

/-- To write bytes to the beginning of a buffer. -/
def Buffer.write (b : Buffer B) (bs : List B) : Except Fault (Buffer B) :=
  if h : bs.length ≤ maxBufferSize then
    .ok
      { bytes := bs ++ b.bytes.drop bs.length
        length_eq := by simp [b.length_eq, h] }
  else .error .overrun

/-- The callback of a client. -/
inductive Callback
  | recvCb
  | sendCb
  deriving DecidableEq

/-- The events that are waited for. -/
inductive Events
  /-- `EPOLLIN`. -/
  | epollin
  /-- `EPOLLOUT | EPOLLET`. -/
  | epollout

/-- `struct sockitem`. -/
structure SockItem (B : Type) where
  /-- `callback`. -/
  callback : Callback
  /-- `recvbuffer`. -/
  recvbuffer : Buffer B
  /-- `sendbuffer`. -/
  sendbuffer : Buffer B
  /-- `recvlength`. -/
  recvlength : ℕ
  /-- `sendlength`. -/
  sendlength : ℕ

/-- A client: its item, and what `epoll` waits for on its socket. -/
structure Client (B : Type) where
  item : SockItem B
  events : Events

/-- The values of `errno`, as far as they are looked at. -/
inductive Errno
  | eagain
  | ewouldblock
  | eintr
  | other
  deriving DecidableEq

/-- What `recv` returns, with the bytes it writes. -/
inductive RecvResult (B : Type)
  /-- The number of bytes that have been received. -/
  | bytes (bs : List B)
  /-- Zero. -/
  | closed
  /-- A negative number. -/
  | failed (errno : Errno)

/-- What `send` returns. -/
inductive SendResult
  /-- The number of bytes that have been accepted. -/
  | count (n : ℕ)
  /-- A negative number. -/
  | failed (errno : Errno)

/-- `accept_cb`, on the memory of the new item. -/
def acceptCb (mem : SockItem B) : Client B where
  item := { mem with callback := .recvCb }
  events := .epollin

/-- `recv_cb`: the client, unless it has been removed and its item freed. -/
def recvCb (c : Client B) : RecvResult B → Except Fault (Option (Client B))
  | .failed errno =>
    if errno = .eagain ∨ errno = .ewouldblock ∨ errno = .eintr then .ok (some c) else .ok none
  | .closed => .ok none
  | .bytes bs => do
    let recvbuffer ← c.item.recvbuffer.write bs
    let recvlength := bs.length
    let sendbuffer ← c.item.sendbuffer.write (recvbuffer.bytes.take recvlength)
    let sendlength := recvlength
    pure (some
      { item :=
          { callback := .sendCb
            recvbuffer := recvbuffer
            sendbuffer := sendbuffer
            recvlength := recvlength
            sendlength := sendlength }
        events := .epollout })

/-- The bytes that `send_cb` calls `send` with. -/
def offered (c : Client B) : List B := c.item.sendbuffer.bytes.take c.item.sendlength

/-- `send_cb`, on what `send` returns. -/
def sendCb (c : Client B) (_ : SendResult) : Client B where
  item := { c.item with callback := .recvCb }
  events := .epollin

/-! ### Runs -/

/-- How many bytes have been accepted. -/
def SendResult.accepted : SendResult → ℕ
  | .count n => n
  | .failed _ => 0

/-- `recv` is called for as many bytes as the buffer has, and returns zero at the end of the stream
only. -/
def RecvResult.Possible : RecvResult B → Prop
  | .bytes bs => 0 < bs.length ∧ bs.length ≤ maxBufferSize
  | .closed => True
  | .failed _ => True

/-- The bytes of a result. -/
def RecvResult.received : RecvResult B → List B
  | .bytes bs => bs
  | .closed => []
  | .failed _ => []

/-- A result whose bytes carry their numbers in the stream. -/
def RecvResult.number (k : ℕ) : RecvResult B → RecvResult (B × ℕ)
  | .bytes bs => .bytes (bs.zipIdx k)
  | .closed => .closed
  | .failed errno => .failed errno

/-- The connection of a client, with the stream that has been received and the bytes that have been
accepted by `send`. -/
structure Conn (B : Type) where
  /-- The client, until its item is freed. -/
  client : Option (Client (B × ℕ))
  /-- The bytes received. -/
  received : List (B × ℕ)
  /-- The bytes accepted. -/
  accepted : List (B × ℕ)

/-- A connection that has been accepted. -/
def Conn.new (mem : SockItem (B × ℕ)) : Conn B where
  client := some (acceptCb mem)
  received := []
  accepted := []

/-- What the system returns to the callback. -/
inductive Answer (B : Type)
  | recv (r : RecvResult B)
  | send (r : SendResult)

/-- **The steps of a connection**: `main` finds the socket ready and calls its callback. -/
inductive Step : Conn B → Answer B → Conn B → Prop
  /-- The callback is `recv_cb`. -/
  | recv {s : Conn B} {c : Client (B × ℕ)} {client : Option (Client (B × ℕ))} {r : RecvResult B} :
    s.client = some c → c.item.callback = .recvCb → r.Possible →
    recvCb c (r.number s.received.length) = .ok client →
    Step s (.recv r)
      { s with
        client := client
        received := s.received ++ r.received.zipIdx s.received.length }
  /-- The callback is `send_cb`. -/
  | send {s : Conn B} {c : Client (B × ℕ)} {r : SendResult} :
    s.client = some c → c.item.callback = .sendCb → r.accepted ≤ (offered c).length →
    Step s (.send r)
      { s with
        client := some (sendCb c r)
        accepted := s.accepted ++ (offered c).take r.accepted }

end Reactor

end BackendStudy
