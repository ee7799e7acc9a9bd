import BackendStudy.Dns.Request
import BackendStudy.Lib.Runs
import Mathlib.Logic.Function.Basic

/-!
# The asynchronous client

`async_dns_client.c` sends a request from a socket of its own and goes on at once
(`dns_async_client_commit`); another thread waits for sockets to become readable, and for each
calls the callback of the request with what it reads, takes the socket out of the interest list,
closes it, and frees the `ep_arg` of the request (`dns_async_client_proc`). Any number of threads
commit requests at the same time, and the numbers of sockets and the addresses of `ep_arg` are
given out again.

A step is what a thread does up to its next system call (`BackendStudy.Dns.Pool.exec`). What is in
the queue of a socket is a datagram, or an error that makes `recvfrom` fail. Requests are numbered,
and the number of a request stands for its callback; what has arrived for it is recorded. To use an
`ep_arg` that has been freed, or a socket that is closed, is a fault.

So is what a commit does to the memory of others: `strtok` keeps its place in a static variable, and
two threads are not to be in `dns_create_question` at once; and the request has 1024 bytes, which a
hostname of more than 1006 bytes does not leave (`BackendStudy.Dns.makeRequest_of_length`). There is
no step behind a fault.
-/

namespace BackendStudy

namespace Dns

/-- What is read from a socket: a datagram, or nothing for an error. -/
abbrev Arrival := Option (List UInt8)

/-- A socket of a request. -/
structure Socket where
  /-- The number of the request. -/
  request : ℕ
  /-- What is to be read. -/
  queue : List Arrival

/-- `struct ep_arg`. -/
structure EpArg where
  /-- `sockfd`. -/
  sockfd : ℕ
  /-- `cb`, by the number of the request. -/
  cb : ℕ

/-- Where a call of `dns_async_client_commit` is. -/
inductive Commit
  /-- There is no call. -/
  | idle
  /-- It has its socket, and is to call `dns_create_question`. -/
  | opened (request fd : ℕ) (hostname : List UInt8)
  /-- It is in `dns_create_question`. -/
  | naming (request fd : ℕ) (hostname : List UInt8)
  /-- It is to send the request. -/
  | built (request fd : ℕ)
  /-- It is to allocate an `ep_arg`. -/
  | sent (request fd : ℕ)
  /-- It is to add the socket to the interest list. -/
  | allocated (request fd p : ℕ)

/-- Where `dns_async_client_proc` is, with the events that are left. -/
inductive Proc
  /-- It is to wait. -/
  | waiting
  /-- It is to read from the socket of the next event. -/
  | handling (todo : List ℕ)
  /-- It is to parse what it has read, and to call the callback. -/
  | received (p fd : ℕ) (data : Arrival) (todo : List ℕ)
  /-- It is to take the socket out of the interest list. -/
  | called (p fd : ℕ) (todo : List ℕ)
  /-- It is to close the socket. -/
  | deleted (p fd : ℕ) (todo : List ℕ)
  /-- It is to free the `ep_arg`. -/
  | closed (p : ℕ) (todo : List ℕ)

/-- The client, with what the system has for it. -/
structure Pool (ι : Type) where
  /-- The open sockets. -/
  sockets : ℕ → Option Socket
  /-- The `ep_arg`s that are allocated. -/
  args : ℕ → Option EpArg
  /-- The interest list: sockets and the data of their events. -/
  interest : ℕ → Option ℕ
  /-- The calls of `dns_async_client_commit`, by their threads. -/
  commits : ι → Commit
  /-- The thread that has the static variable of `strtok`. -/
  strtok : Option ι
  /-- `dns_async_client_proc`. -/
  proc : Proc
  /-- How many requests there have been. -/
  requests : ℕ
  /-- The requests whose call has returned `-1`. -/
  failed : List ℕ
  /-- What callbacks have been called with. -/
  results : List (ℕ × Found)
  /-- What has arrived for each request. -/
  arrived : ℕ → List Arrival

/-- `dns_async_client_init`. -/
def Pool.init (ι : Type) : Pool ι where
  sockets _ := none
  args _ := none
  interest _ := none
  commits _ := .idle
  strtok := none
  proc := .waiting
  requests := 0
  failed := []
  results := []
  arrived _ := []

/-- A step. -/
inductive PoolOp (ι : Type)
  /-- `dns_async_client_commit` is called for a hostname, and `socket` returns a number. -/
  | socket (t : ι) (fd : ℕ) (hostname : List UInt8)
  /-- `dns_create_question` is called. -/
  | question (t : ι)
  /-- It returns, and `dns_build_request` builds the request: the number of the header, and whether
  there is a block for the name. -/
  | build (t : ι) (random : ℕ) (malloc : Bool)
  /-- `sendto`. -/
  | send (t : ι)
  /-- `calloc`, and the address if it succeeds. -/
  | calloc (t : ι) (p : Option ℕ)
  /-- `epoll_ctl` to add a socket, and whether it succeeds. -/
  | add (t : ι) (ok : Bool)
  /-- Something arrives at a socket. -/
  | arrive (fd : ℕ) (data : Arrival)
  /-- `epoll_wait` returns the events of sockets that are readable. -/
  | wait (fds : List ℕ)
  /-- `recvfrom`. -/
  | recv
  /-- `dns_parse_response`, for which the fuel is enough, and the callback. -/
  | call (fuel : ℕ)
  /-- `epoll_ctl` to delete a socket. -/
  | del
  /-- `close`. -/
  | close
  /-- `dns_async_client_free_domains` and `free`. -/
  | free

/-- Why there is no step. -/
inductive PoolStop
  /-- It is not the turn of this step. -/
  | notThere
  /-- Another thread has the static variable of `strtok`. -/
  | strtok
  /-- The request is written outside of its buffer. -/
  | request (f : Fault)
  /-- The parser reads or writes outside of a buffer, or has not come to an end. -/
  | parser (f : Fault)
  /-- An `ep_arg` is used that has been freed. -/
  | freedArg
  /-- A socket is used that is closed. -/
  | closedSocket
  deriving DecidableEq

/-- `ASYNC_CLIENT_NUM`. -/
def asyncClientNum : ℕ := 1024

/-- `question` and `request` of `dns_async_client_commit`, which looks at no result. -/
def makeRequest (random : ℕ) (malloc : Bool) (hostname : List UInt8) :
    Except Fault (ℕ × List (Option UInt8)) := do
  let (_, question) ← dnsCreateQuestion (some ⟨0, 0, 0, []⟩) malloc hostname
  dnsBuildRequest (dnsCreateHeader random) (question.getD ⟨0, 0, 0, []⟩)
    (List.replicate 1024 (some 0))

/-- `buffer`, after `recvfrom`. -/
def received (data : Arrival) : List UInt8 :=
  (data.getD []).take 1024 ++ List.replicate (1024 - (data.getD []).length) 0

/-- **The request has room** for the question of a hostname of 1006 bytes. -/
theorem makeRequest_of_length {hostname : List UInt8} (h : hostname.length ≤ 1006) (random : ℕ)
    (malloc : Bool) : ∃ x, makeRequest random malloc hostname = .ok x := by
  have hbuild : ∀ question : DnsQuestion, question.qname.length = question.length →
      question.length ≤ 1008 → ∃ x, dnsBuildRequest (dnsCreateHeader random) question
        (List.replicate 1024 (some 0)) = .ok x := by
    intro question hqname hlen
    exact ⟨_, dnsBuildRequest_ok hqname (by rw [List.length_replicate]; omega)⟩
  unfold makeRequest
  cases malloc with
  | false =>
    have hmade : dnsCreateQuestion (some ⟨0, 0, 0, []⟩) false hostname =
        .ok (-2, some ⟨0, 0, 0, []⟩) := rfl
    rw [hmade, Slots.ok_bind]
    exact hbuild ⟨0, 0, 0, []⟩ rfl (Nat.zero_le _)
  | true =>
    have hle := length_nameBytes_le hostname
    rw [dnsCreateQuestion_ok, Slots.ok_bind]
    refine hbuild ⟨hostname.length + 2, 1, 1, _⟩ ?_ (Nat.add_le_add_right h 2)
    rw [List.length_append, List.length_map, List.length_replicate]
    exact Nat.add_sub_cancel' hle

/-- The events that are left, or the next wait. -/
def Proc.next : List ℕ → Proc
  | [] => .waiting
  | todo => .handling todo

section

variable {ι : Type}

/-- A socket in the interest list that is readable. -/
def Pool.ready (s : Pool ι) (fd : ℕ) : Bool :=
  (s.interest fd).isSome && (s.sockets fd).any fun sock => !sock.queue.isEmpty

variable [DecidableEq ι]

/-- A call goes on. -/
def Pool.goto (s : Pool ι) (t : ι) (c : Commit) : Pool ι :=
  { s with commits := Function.update s.commits t c }

/-- **A step.** -/
def Pool.exec (s : Pool ι) : PoolOp ι → Except PoolStop (Pool ι)
  | .socket t fd hostname =>
    match s.commits t, s.sockets fd with
    | .idle, none => .ok ({ s with
        sockets := Function.update s.sockets fd (some ⟨s.requests, []⟩)
        requests := s.requests + 1 }.goto t (.opened s.requests fd hostname))
    | _, _ => .error .notThere
  | .question t =>
    match s.commits t, s.strtok with
    | .opened r fd hostname, none =>
      .ok ({ s with strtok := some t }.goto t (.naming r fd hostname))
    | .opened _ _ _, some _ => .error .strtok
    | _, _ => .error .notThere
  | .build t random malloc =>
    match s.commits t with
    | .naming r fd hostname =>
      match makeRequest random malloc hostname with
      | .ok _ => .ok ({ s with strtok := none }.goto t (.built r fd))
      | .error f => .error (.request f)
    | _ => .error .notThere
  | .send t =>
    match s.commits t with
    | .built r fd => .ok (s.goto t (.sent r fd))
    | _ => .error .notThere
  | .calloc t p =>
    match s.commits t, p with
    | .sent r _, none => .ok ({ s with failed := r :: s.failed }.goto t .idle)
    | .sent r fd, some p =>
      match s.args p with
      | none => .ok ({ s with
          args := Function.update s.args p (some ⟨fd, r⟩) }.goto t (.allocated r fd p))
      | some _ => .error .notThere
    | _, _ => .error .notThere
  | .add t ok =>
    match s.commits t with
    | .allocated r fd p =>
      if ok ∧ s.interest fd = none then
        .ok ({ s with interest := Function.update s.interest fd (some p) }.goto t .idle)
      else .ok ({ s with failed := r :: s.failed }.goto t .idle)
    | _ => .error .notThere
  | .arrive fd data =>
    match s.sockets fd with
    | some sock => .ok { s with
        sockets := Function.update s.sockets fd (some { sock with queue := sock.queue ++ [data] })
        arrived := Function.update s.arrived sock.request (s.arrived sock.request ++ [data]) }
    | none => .error .notThere
  | .wait fds =>
    match s.proc with
    | .waiting =>
      if fds ≠ [] ∧ fds.length ≤ asyncClientNum ∧ fds.Nodup ∧ ∀ fd ∈ fds, s.ready fd then
        .ok { s with proc := .handling (fds.filterMap s.interest) }
      else .error .notThere
    | _ => .error .notThere
  | .recv =>
    match s.proc with
    | .handling (p :: todo) =>
      match s.args p with
      | none => .error .freedArg
      | some arg =>
        match s.sockets arg.sockfd with
        | none => .error .closedSocket
        | some sock => .ok { s with
            sockets := Function.update s.sockets arg.sockfd
              (some { sock with queue := sock.queue.tail })
            proc := .received p arg.sockfd (sock.queue.headD none) todo }
    | _ => .error .notThere
  | .call fuel =>
    match s.proc with
    | .received p fd data todo =>
      match dnsParseResponse fuel (received data), s.args p with
      | .error f, _ => .error (.parser f)
      | .ok _, none => .error .freedArg
      | .ok x, some arg => .ok { s with
          results := s.results ++ [(arg.cb, x)]
          proc := .called p fd todo }
    | _ => .error .notThere
  | .del =>
    match s.proc with
    | .called p fd todo => .ok { s with
        interest := Function.update s.interest fd none
        proc := .deleted p fd todo }
    | _ => .error .notThere
  | .close =>
    match s.proc with
    | .deleted p fd todo =>
      match s.sockets fd with
      | none => .error .closedSocket
      | some _ => .ok { s with
          sockets := Function.update s.sockets fd none
          interest := Function.update s.interest fd none
          proc := .closed p todo }
    | _ => .error .notThere
  | .free =>
    match s.proc with
    | .closed p todo =>
      match s.args p with
      | none => .error .freedArg
      | some _ => .ok { s with args := Function.update s.args p none, proc := .next todo }
    | _ => .error .notThere

/-- A step that leads to a state. -/
def Pool.step (s : Pool ι) (op : PoolOp ι) (s' : Pool ι) : Prop := s.exec op = .ok s'

end

end Dns

end BackendStudy
