import BackendStudy.Dns.Pool
import Mathlib.Data.List.Nodup

/-!
# Who has a socket

The socket of a request and its `ep_arg` go from the call that commits the request to the interest
list, and from there to the thread that waits. At any time they are in one place
(`BackendStudy.Dns.Held`), and every step keeps this (`BackendStudy.Dns.Held.step`), although the
numbers of sockets and the addresses of `ep_arg` are given out again. So nothing is used that is
gone (`BackendStudy.Dns.Held.safe`).
-/

namespace BackendStudy

namespace Dns

variable {ι : Type}

/-- A call has a request and its socket. -/
def Commit.Has : Commit → ℕ → ℕ → Prop
  | .idle, _, _ => False
  | .opened r fd _, r', fd' => r = r' ∧ fd = fd'
  | .naming r fd _, r', fd' => r = r' ∧ fd = fd'
  | .built r fd, r', fd' => r = r' ∧ fd = fd'
  | .sent r fd, r', fd' => r = r' ∧ fd = fd'
  | .allocated r fd _, r', fd' => r = r' ∧ fd = fd'

/-- The events that are left. -/
def Proc.todo : Proc → List ℕ
  | .waiting => []
  | .handling todo | .received _ _ _ todo | .called _ _ todo | .deleted _ _ todo
  | .closed _ todo => todo

/-- An event is handled, and its socket is in the interest list. -/
def Proc.At : Proc → ℕ → ℕ → Prop
  | .received p fd _ _, p', fd' => p = p' ∧ fd = fd'
  | .called p fd _, p', fd' => p = p' ∧ fd = fd'
  | _, _, _ => False

/-- **Who has what**: each socket of a request, and its `ep_arg`, belong to one call, to the
interest list, or to the waiting thread. -/
structure Held (s : Pool ι) : Prop where
  /-- A socket in the interest list is open, and its event has the `ep_arg` of its request. -/
  watched : ∀ fd p, s.interest fd = some p →
    ∃ a, s.sockets fd = some a ∧ s.args p = some ⟨fd, a.request⟩
  /-- A request has one socket. -/
  owners : ∀ fd fd' a b, s.sockets fd = some a → s.sockets fd' = some b →
    a.request = b.request → fd = fd'
  /-- The requests are numbered. -/
  numbered : ∀ fd a, s.sockets fd = some a → a.request < s.requests
  /-- The socket of a call is open, and not in the interest list. -/
  calls : ∀ t r fd, (s.commits t).Has r fd → s.interest fd = none ∧
    ∃ a, s.sockets fd = some a ∧ a.request = r
  /-- A call has its `ep_arg`. -/
  args : ∀ t r fd p, s.commits t = .allocated r fd p → s.args p = some ⟨fd, r⟩
  /-- Two calls have two sockets. -/
  apart : ∀ t t' r r' fd, (s.commits t).Has r fd → (s.commits t').Has r' fd → t = t'
  /-- The events that are left are of sockets in the interest list that can be read. -/
  todo : ∀ p ∈ s.proc.todo, ∃ fd a, s.interest fd = some p ∧ s.sockets fd = some a ∧ a.queue ≠ []
  /-- They are different. -/
  nodup : s.proc.todo.Nodup
  /-- The event that is handled is not left, and its socket is in the interest list. -/
  handled : ∀ p fd, s.proc.At p fd → p ∉ s.proc.todo ∧ s.interest fd = some p
  /-- A socket that is to be closed is with the waiting thread only. -/
  deleted : ∀ p fd todo, s.proc = .deleted p fd todo → s.interest fd = none ∧
    (∃ a, s.sockets fd = some a ∧ s.args p = some ⟨fd, a.request⟩) ∧
      ∀ t r, ¬(s.commits t).Has r fd
  /-- An `ep_arg` that is to be freed is with the waiting thread only. -/
  closed : ∀ p todo, s.proc = .closed p todo → (∃ arg, s.args p = some arg) ∧
    (∀ fd, s.interest fd ≠ some p) ∧ ∀ t r fd, s.commits t ≠ .allocated r fd p

section

variable {s s' : Pool ι}

theorem held_init : Held (Pool.init ι) where
  watched fd p h := absurd h (by simp [Pool.init])
  owners fd fd' a b h := absurd h (by simp [Pool.init])
  numbered fd a h := absurd h (by simp [Pool.init])
  calls t r fd h := h.elim
  args t r fd p h := absurd h (by simp [Pool.init])
  apart t t' r r' fd h := h.elim
  todo p h := absurd h List.not_mem_nil
  nodup := List.nodup_nil
  handled p fd h := h.elim
  deleted p fd todo h := absurd h (by simp [Pool.init])
  closed p todo h := absurd h (by simp [Pool.init])

variable {r fd p : ℕ}

theorem Held.interest_inj {fd' : ℕ} (h : Held s) (hp : s.interest fd = some p)
    (hp' : s.interest fd' = some p) : fd = fd' := by
  obtain ⟨a, -, harg⟩ := h.watched fd p hp
  obtain ⟨b, -, harg'⟩ := h.watched fd' p hp'
  exact (EpArg.mk.inj (Option.some.inj (harg.symm.trans harg'))).1

/-- The `ep_arg` of the event that is handled is there, and its socket is open. -/
theorem Held.arg_of_at (h : Held s) (hat : s.proc.At p fd) :
    ∃ a, s.sockets fd = some a ∧ s.args p = some ⟨fd, a.request⟩ :=
  h.watched fd p (h.handled p fd hat).2

/-- A new `ep_arg`. -/
theorem Held.allocate {q : ℕ} {arg : EpArg} (h : Held s) (hq : s.args q = none) :
    Held { s with args := Function.update s.args q (some arg) } := by
  obtain ⟨hwatched, howners, hnumbered, hcalls, hargs, hapart, htodo, hnodup, hhandled,
    hdeleted, hclosed⟩ := h
  have hold : ∀ p x, s.args p = some x → Function.update s.args q (some arg) p = some x := by
    intro p x hp
    rw [Function.update_of_ne (fun he => by simp [← he, hp] at hq), hp]
  refine ⟨fun f p hf => ?_, howners, hnumbered, hcalls,
    fun u r f p hu => hold _ _ (hargs u r f p hu), hapart, htodo, hnodup, hhandled,
    fun p f todo hp => ?_, fun p todo hp => ?_⟩
  · obtain ⟨a, ha, harg⟩ := hwatched f p hf
    exact ⟨a, ha, hold _ _ harg⟩
  · obtain ⟨hnone, ⟨a, ha, harg⟩, hfree⟩ := hdeleted p f todo hp
    exact ⟨hnone, ⟨a, ha, hold _ _ harg⟩, hfree⟩
  · obtain ⟨⟨x, hx⟩, hrest⟩ := hclosed p todo hp
    exact ⟨⟨x, hold _ _ hx⟩, hrest⟩

/-- Something is to be read from a socket, or has been read. -/
theorem Held.requeue {a b : Socket} (h : Held s) (ha : s.sockets fd = some a)
    (hb : b.request = a.request)
    (hq : ∀ p, s.interest fd = some p → p ∈ s.proc.todo → b.queue ≠ []) :
    Held { s with sockets := Function.update s.sockets fd (some b) } := by
  -- every socket is still there, and is of the request that it was of
  have hnew : ∀ f x, s.sockets f = some x →
      ∃ y, Function.update s.sockets fd (some b) f = some y ∧ y.request = x.request := by
    intro f x hx
    by_cases hf : f = fd
    · subst hf
      exact ⟨b, Function.update_self _ _ _, by simp_all⟩
    · exact ⟨x, by rw [Function.update_of_ne hf, hx], rfl⟩
  have hold : ∀ f y, Function.update s.sockets fd (some b) f = some y →
      ∃ x, s.sockets f = some x ∧ y.request = x.request := by
    intro f y hy
    by_cases hf : f = fd
    · subst hf
      rw [Function.update_self] at hy
      exact ⟨a, ha, by simp_all⟩
    · rw [Function.update_of_ne hf] at hy
      exact ⟨y, hy, rfl⟩
  constructor
  · intro f p hp
    obtain ⟨x, hx, harg⟩ := h.watched f p hp
    obtain ⟨y, hy, hreq⟩ := hnew f x hx
    exact ⟨y, hy, by rw [hreq]; exact harg⟩
  · intro f f' y y' hy hy' hreq
    obtain ⟨x, hx, he⟩ := hold f y hy
    obtain ⟨x', hx', he'⟩ := hold f' y' hy'
    exact h.owners f f' x x' hx hx' (by rw [← he, ← he', hreq])
  · intro f y hy
    obtain ⟨x, hx, he⟩ := hold f y hy
    exact he ▸ h.numbered f x hx
  · intro u r f hu
    obtain ⟨hnone, x, hx, hreq⟩ := h.calls u r f hu
    obtain ⟨y, hy, he⟩ := hnew f x hx
    exact ⟨hnone, y, hy, he.trans hreq⟩
  · exact h.args
  · exact h.apart
  -- the socket that is still to be read from is the one whose queue may have changed
  · intro p hp
    obtain ⟨f, x, hint, hx, hne⟩ := h.todo p hp
    by_cases hf : f = fd
    · subst hf
      exact ⟨f, b, hint, Function.update_self _ _ _, hq p hint hp⟩
    · exact ⟨f, x, hint, (Function.update_of_ne hf _ _).trans hx, hne⟩
  · exact h.nodup
  · exact h.handled
  · intro p f todo hproc
    obtain ⟨hnone, ⟨x, hx, harg⟩, hfree⟩ := h.deleted p f todo hproc
    obtain ⟨y, hy, he⟩ := hnew f x hx
    exact ⟨hnone, ⟨y, hy, by rw [he]; exact harg⟩, hfree⟩
  · exact h.closed

/-- The waiting thread goes on, and leaves everything as it is. -/
theorem Held.goOn {c : Proc} (h : Held s)
    (htodo : ∀ p ∈ c.todo, ∃ fd a, s.interest fd = some p ∧ s.sockets fd = some a ∧
      a.queue ≠ [])
    (hnodup : c.todo.Nodup)
    (hat : ∀ p fd, c.At p fd → p ∉ c.todo ∧ s.interest fd = some p)
    (hdel : ∀ p fd todo, c ≠ .deleted p fd todo) (hclosed : ∀ p todo, c ≠ .closed p todo) :
    Held { s with proc := c } :=
  ⟨h.watched, h.owners, h.numbered, h.calls, h.args, h.apart, htodo, hnodup, hat,
    fun p fd todo he => absurd he (hdel p fd todo), fun p todo he => absurd he (hclosed p todo)⟩

/-! ### What a step does -/

variable [DecidableEq ι] {t : ι} {c : Commit} {hostname : List UInt8}

theorem exec_socket (h : s.step (.socket t fd hostname) s') :
    s.commits t = .idle ∧ s.sockets fd = none ∧ s' = { s with
        sockets := Function.update s.sockets fd (some ⟨s.requests, []⟩)
        requests := s.requests + 1 }.goto t (.opened s.requests fd hostname) := by
  unfold Pool.step Pool.exec at h
  simp only at h
  split at h
  · exact ⟨‹_›, ‹_›, (Except.ok.inj h).symm⟩
  · cases h

theorem exec_question (h : s.step (.question t) s') :
    ∃ r fd hostname, s.commits t = .opened r fd hostname ∧
      s' = { s with strtok := some t }.goto t (.naming r fd hostname) := by
  unfold Pool.step Pool.exec at h
  simp only at h
  split at h
  · exact ⟨_, _, _, ‹_›, (Except.ok.inj h).symm⟩
  · cases h
  · cases h

theorem exec_build {random : ℕ} {malloc : Bool} (h : s.step (.build t random malloc) s') :
    ∃ r fd hostname, s.commits t = .naming r fd hostname ∧
      s' = { s with strtok := none }.goto t (.built r fd) := by
  unfold Pool.step Pool.exec at h
  simp only at h
  split at h
  · split at h
    · exact ⟨_, _, _, ‹_›, (Except.ok.inj h).symm⟩
    · cases h
  · cases h

theorem exec_send (h : s.step (.send t) s') :
    ∃ r fd, s.commits t = .built r fd ∧ s' = s.goto t (.sent r fd) := by
  unfold Pool.step Pool.exec at h
  simp only at h
  split at h
  · exact ⟨_, _, ‹_›, (Except.ok.inj h).symm⟩
  · cases h

theorem exec_calloc {p : Option ℕ} (h : s.step (.calloc t p) s') :
    ∃ r fd, s.commits t = .sent r fd ∧
      (p = none ∧ s' = { s with failed := r :: s.failed }.goto t .idle ∨
        ∃ q, p = some q ∧ s.args q = none ∧ s' = { s with
          args := Function.update s.args q (some ⟨fd, r⟩) }.goto t (.allocated r fd q)) := by
  unfold Pool.step Pool.exec at h
  simp only at h
  split at h
  · exact ⟨_, _, ‹_›, .inl ⟨rfl, (Except.ok.inj h).symm⟩⟩
  · split at h
    · exact ⟨_, _, ‹_›, .inr ⟨_, rfl, ‹_›, (Except.ok.inj h).symm⟩⟩
    · cases h
  · cases h

theorem exec_add {ok : Bool} (h : s.step (.add t ok) s') :
    ∃ r fd p, s.commits t = .allocated r fd p ∧
      (s.interest fd = none ∧
          s' = { s with interest := Function.update s.interest fd (some p) }.goto t .idle ∨
        s' = { s with failed := r :: s.failed }.goto t .idle) := by
  unfold Pool.step Pool.exec at h
  simp only at h
  split at h
  · split_ifs at h with hok
    · exact ⟨_, _, _, ‹_›, .inl ⟨hok.2, (Except.ok.inj h).symm⟩⟩
    · exact ⟨_, _, _, ‹_›, .inr (Except.ok.inj h).symm⟩
  · cases h

theorem exec_arrive {data : Arrival} (h : s.step (.arrive fd data) s') :
    ∃ sock, s.sockets fd = some sock ∧ s' = { s with
      sockets := Function.update s.sockets fd (some { sock with queue := sock.queue ++ [data] })
      arrived := Function.update s.arrived sock.request
        (s.arrived sock.request ++ [data]) } := by
  unfold Pool.step Pool.exec at h
  simp only at h
  split at h
  · exact ⟨_, ‹_›, (Except.ok.inj h).symm⟩
  · cases h

theorem exec_wait {fds : List ℕ} (h : s.step (.wait fds) s') :
    s.proc = .waiting ∧ fds.Nodup ∧ (∀ fd ∈ fds, s.ready fd) ∧
      s' = { s with proc := .handling (fds.filterMap s.interest) } := by
  unfold Pool.step Pool.exec at h
  simp only at h
  split at h
  · split_ifs at h with hok
    exact ⟨‹_›, hok.2.2.1, hok.2.2.2, (Except.ok.inj h).symm⟩
  · cases h

theorem exec_recv (h : s.step .recv s') :
    ∃ p todo arg sock, s.proc = .handling (p :: todo) ∧ s.args p = some arg ∧
      s.sockets arg.sockfd = some sock ∧ s' = { s with
        sockets := Function.update s.sockets arg.sockfd
          (some { sock with queue := sock.queue.tail })
        proc := .received p arg.sockfd (sock.queue.headD none) todo } := by
  unfold Pool.step Pool.exec at h
  simp only at h
  split at h
  · split at h
    · cases h
    · split at h
      · cases h
      · exact ⟨_, _, _, _, ‹_›, ‹_›, ‹_›, (Except.ok.inj h).symm⟩
  · cases h

theorem exec_call {fuel : ℕ} (h : s.step (.call fuel) s') :
    ∃ p fd data todo arg x, s.proc = .received p fd data todo ∧ s.args p = some arg ∧
      dnsParseResponse fuel (received data) = .ok x ∧ s' = { s with
        results := s.results ++ [(arg.cb, x)]
        proc := .called p fd todo } := by
  unfold Pool.step Pool.exec at h
  simp only at h
  split at h
  · split at h
    · cases h
    · cases h
    · exact ⟨_, _, _, _, _, _, ‹_›, ‹_›, ‹_›, (Except.ok.inj h).symm⟩
  · cases h

theorem exec_del (h : s.step .del s') :
    ∃ p fd todo, s.proc = .called p fd todo ∧ s' = { s with
      interest := Function.update s.interest fd none
      proc := .deleted p fd todo } := by
  unfold Pool.step Pool.exec at h
  simp only at h
  split at h
  · exact ⟨_, _, _, ‹_›, (Except.ok.inj h).symm⟩
  · cases h

theorem exec_close (h : s.step .close s') :
    ∃ p fd todo, s.proc = .deleted p fd todo ∧ s' = { s with
      sockets := Function.update s.sockets fd none
      interest := Function.update s.interest fd none
      proc := .closed p todo } := by
  unfold Pool.step Pool.exec at h
  simp only at h
  split at h
  · split at h
    · cases h
    · exact ⟨_, _, _, ‹_›, (Except.ok.inj h).symm⟩
  · cases h

theorem exec_free (h : s.step .free s') :
    ∃ p todo, s.proc = .closed p todo ∧
      s' = { s with args := Function.update s.args p none, proc := .next todo } := by
  unfold Pool.step Pool.exec at h
  simp only at h
  split at h
  · split at h
    · cases h
    · exact ⟨_, _, ‹_›, (Except.ok.inj h).symm⟩
  · cases h

/-! ### Who has what -/

theorem Held.socket (h : Held s) (hs : s.step (.socket t fd hostname) s') : Held s' := by
  obtain ⟨ht, hfd, rfl⟩ := exec_socket hs
  obtain ⟨hwatched, howners, hnumbered, hcalls, hargs, hapart, htodo, hnodup, hhandled,
    hdeleted, hclosed⟩ := h
  have hnone : s.interest fd = none := by
    cases hf : s.interest fd with
    | none => rfl
    | some p => grind
  constructor <;> simp only [Pool.goto, Function.update_apply]
  · grind
  · grind
  · grind
  · grind [Commit.Has]
  · grind
  · grind [Commit.Has]
  · grind
  · exact hnodup
  · exact hhandled
  · grind [Commit.Has]
  · grind

/-- A call goes on with what it has. -/
theorem Held.goto (h : Held s) (hhas : ∀ r fd, c.Has r fd → (s.commits t).Has r fd)
    (hargs : ∀ r fd p, c = .allocated r fd p →
      s.args p = some ⟨fd, r⟩ ∧ ∀ todo, s.proc ≠ .closed p todo) : Held (s.goto t c) := by
  constructor <;> simp only [Pool.goto, Function.update_apply]
  · exact h.watched
  · exact h.owners
  · exact h.numbered
  · intro u r fd hu
    split_ifs at hu with hut
    · exact h.calls t r fd (hhas r fd hu)
    · exact h.calls u r fd hu
  · intro u r fd p hu
    split_ifs at hu with hut
    · exact (hargs r fd p hu).1
    · exact h.args u r fd p hu
  · have happart := h.apart
    intro u u' r r' fd hu hu'
    grind
  · exact h.todo
  · exact h.nodup
  · exact h.handled
  · intro p fd todo hproc
    obtain ⟨hnone, hsock, hfree⟩ := h.deleted p fd todo hproc
    refine ⟨hnone, hsock, fun u r hu => ?_⟩
    split_ifs at hu with hut
    · exact hfree t r (hhas r fd hu)
    · exact hfree u r hu
  · intro p todo hproc
    obtain ⟨harg, hint, hfree⟩ := h.closed p todo hproc
    refine ⟨harg, hint, fun u r fd hu => ?_⟩
    split_ifs at hu with hut
    · exact (hargs r fd p hu).2 todo hproc
    · exact hfree u r fd hu

/-- A call goes on to make its request, and the static variable changes hands. -/
theorem Held.naming {u : Option ι} (h : Held s)
    (hhas : ∀ r fd, c.Has r fd → (s.commits t).Has r fd)
    (hargs : ∀ r fd p, c ≠ .allocated r fd p) : Held ({ s with strtok := u }.goto t c) :=
  Held.goto ⟨h.1, h.2, h.3, h.4, h.5, h.6, h.7, h.8, h.9, h.10, h.11⟩ hhas
    fun r fd p hc => absurd hc (hargs r fd p)

theorem Held.question (h : Held s) (hs : s.step (.question t) s') : Held s' := by
  obtain ⟨r, fd, hostname, ht, rfl⟩ := exec_question hs
  refine h.naming (fun r' fd' hhas => ?_) fun r' fd' p hc => nomatch hc
  rw [ht]
  exact hhas

theorem Held.build {random : ℕ} {malloc : Bool} (h : Held s)
    (hs : s.step (.build t random malloc) s') : Held s' := by
  obtain ⟨r, fd, hostname, ht, rfl⟩ := exec_build hs
  refine h.naming (fun r' fd' hhas => ?_) fun r' fd' p hc => nomatch hc
  rw [ht]
  exact hhas

theorem Held.send (h : Held s) (hs : s.step (.send t) s') : Held s' := by
  obtain ⟨r, fd, ht, rfl⟩ := exec_send hs
  refine h.goto (fun r' fd' hhas => ?_) fun r' fd' p hc => nomatch hc
  rw [ht]
  exact hhas

/-- A call returns, and nothing of it is left. -/
theorem Held.failed (h : Held s) : Held ({ s with failed := r :: s.failed }.goto t .idle) :=
  Held.goto ⟨h.1, h.2, h.3, h.4, h.5, h.6, h.7, h.8, h.9, h.10, h.11⟩
    (fun _ _ hhas => hhas.elim) fun _ _ _ hc => nomatch hc

theorem Held.calloc {p : Option ℕ} (h : Held s) (hs : s.step (.calloc t p) s') : Held s' := by
  obtain ⟨r, fd, ht, ⟨-, rfl⟩ | ⟨q, -, hq, rfl⟩⟩ := exec_calloc hs
  · exact h.failed
  · refine (h.allocate hq).goto (fun r' fd' hhas => ?_) fun r' fd' p hc => ?_
    · rw [show ({ s with args := _ } : Pool ι).commits t = .sent r fd from ht]
      exact hhas
    · cases hc
      refine ⟨Function.update_self _ _ _, fun todo hproc => ?_⟩
      obtain ⟨⟨x, hx⟩, -⟩ := h.closed q todo hproc
      simp [hq] at hx

theorem Held.add {ok : Bool} (h : Held s) (hs : s.step (.add t ok) s') : Held s' := by
  obtain ⟨r, fd, p, ht, ⟨hnone, rfl⟩ | rfl⟩ := exec_add hs
  · have hhas : (s.commits t).Has r fd := ht ▸ ⟨rfl, rfl⟩
    obtain ⟨hwatched, howners, hnumbered, hcalls, hargs, hapart, htodo, hnodup, hhandled,
      hdeleted, hclosed⟩ := h
    constructor <;> simp only [Pool.goto, Function.update_apply]
    · grind
    · exact howners
    · exact hnumbered
    · grind [Commit.Has]
    · grind
    · grind [Commit.Has]
    · grind
    · exact hnodup
    · grind
    · grind [Commit.Has]
    · grind
  · exact h.failed

theorem Held.arrive {data : Arrival} (h : Held s) (hs : s.step (.arrive fd data) s') :
    Held s' := by
  obtain ⟨sock, hsock, rfl⟩ := exec_arrive hs
  have hq : sock.queue ++ [data] ≠ [] := List.append_ne_nil_of_right_ne_nil _ (by simp)
  obtain ⟨h₁, h₂, h₃, h₄, h₅, h₆, h₇, h₈, h₉, h₁₀, h₁₁⟩ :=
    h.requeue (b := ⟨sock.request, sock.queue ++ [data]⟩) hsock rfl fun _ _ _ => hq
  exact ⟨h₁, h₂, h₃, h₄, h₅, h₆, h₇, h₈, h₉, h₁₀, h₁₁⟩

theorem Held.wait {fds : List ℕ} (h : Held s) (hs : s.step (.wait fds) s') : Held s' := by
  obtain ⟨hproc, hnodup, hready, rfl⟩ := exec_wait hs
  refine h.goOn (fun p hp => ?_) ?_ (fun p fd hat => hat.elim) (fun p fd todo he => nomatch he)
    fun p todo he => nomatch he
  · obtain ⟨fd, hfd, hp⟩ := List.mem_filterMap.mp hp
    have hr := hready fd hfd
    simp only [Pool.ready, Bool.and_eq_true, Option.any_eq_true, Bool.not_eq_true',
      List.isEmpty_eq_false_iff] at hr
    obtain ⟨-, a, ha, hne⟩ := hr
    exact ⟨fd, a, hp, ha, hne⟩
  · exact hnodup.filterMap fun fd fd' p hp hp' => h.interest_inj hp hp'

theorem Held.recv (h : Held s) (hs : s.step .recv s') : Held s' := by
  obtain ⟨p, todo, arg, sock, hproc, harg, hsock, rfl⟩ := exec_recv hs
  have htodo := h.todo
  have hnodup := h.nodup
  rw [hproc] at htodo hnodup
  obtain ⟨hp, hnodup⟩ := List.nodup_cons.mp hnodup
  obtain ⟨fd, a, hint, -⟩ := htodo p List.mem_cons_self
  obtain ⟨b, -, hfd⟩ := h.watched fd p hint
  obtain rfl : arg = ⟨fd, b.request⟩ := Option.some.inj (harg.symm.trans hfd)
  have hgo : Held { s with proc := .received p fd (sock.queue.headD none) todo } := by
    refine h.goOn (fun q hq => htodo q (List.mem_cons_of_mem _ hq)) hnodup ?_
      (fun p fd todo he => nomatch he) fun p todo he => nomatch he
    rintro q f ⟨rfl, rfl⟩
    exact ⟨hp, hint⟩
  refine hgo.requeue hsock rfl fun q hq hmem => ?_
  obtain rfl : q = p := Option.some.inj (hq.symm.trans hint)
  exact absurd hmem hp

theorem Held.call {fuel : ℕ} (h : Held s) (hs : s.step (.call fuel) s') : Held s' := by
  obtain ⟨p, fd, data, todo, arg, x, hproc, -, -, rfl⟩ := exec_call hs
  have htodo := h.todo
  have hnodup := h.nodup
  have hat := h.handled p fd
  rw [hproc] at htodo hnodup hat
  obtain ⟨h₁, h₂, h₃, h₄, h₅, h₆, h₇, h₈, h₉, h₁₀, h₁₁⟩ :=
    h.goOn (c := .called p fd todo) htodo hnodup
      (fun q f ⟨hq, hf⟩ => hq ▸ hf ▸ hat ⟨rfl, rfl⟩) (fun _ _ _ he => nomatch he)
      fun _ _ he => nomatch he
  exact ⟨h₁, h₂, h₃, h₄, h₅, h₆, h₇, h₈, h₉, h₁₀, h₁₁⟩

theorem Held.del (h : Held s) (hs : s.step .del s') : Held s' := by
  obtain ⟨p, fd, todo, hproc, rfl⟩ := exec_del hs
  have hinj := @h.interest_inj
  obtain ⟨hwatched, howners, hnumbered, hcalls, hargs, hapart, htodo, hnodup, hhandled,
    hdeleted, hclosed⟩ := h
  rw [hproc] at htodo hnodup hhandled
  obtain ⟨hp, hint⟩ := hhandled p fd ⟨rfl, rfl⟩
  constructor <;> simp only [Function.update_apply]
  · grind
  · exact howners
  · exact hnumbered
  · grind
  · exact hargs
  · exact hapart
  · intro q hq
    obtain ⟨f, a, hf, hrest⟩ := htodo q hq
    refine ⟨f, a, ?_, hrest⟩
    rw [if_neg, hf]
    rintro rfl
    obtain rfl : q = p := Option.some.inj (hf.symm.trans hint)
    exact hp hq
  · exact hnodup
  · exact fun _ _ hat => hat.elim
  · grind
  · exact fun _ _ he => nomatch he

theorem Held.close (h : Held s) (hs : s.step .close s') : Held s' := by
  obtain ⟨p, fd, todo, hproc, rfl⟩ := exec_close hs
  obtain ⟨hwatched, howners, hnumbered, hcalls, hargs, hapart, htodo, hnodup, hhandled,
    hdeleted, hclosed⟩ := h
  obtain ⟨hnone, ⟨a, ha, harg⟩, hfree⟩ := hdeleted p fd todo hproc
  rw [hproc] at htodo hnodup
  constructor <;> simp only [Function.update_apply]
  · grind
  · grind
  · grind
  · grind
  · exact hargs
  · exact hapart
  · intro q hq
    obtain ⟨f, b, hf, hb, hne⟩ := htodo q hq
    have hfd : f ≠ fd := fun he => by simp [he, hnone] at hf
    exact ⟨f, b, by rw [if_neg hfd, hf], by rw [if_neg hfd, hb], hne⟩
  · exact hnodup
  · exact fun _ _ hat => hat.elim
  · exact fun _ _ _ he => nomatch he
  · rintro q t he
    cases he
    refine ⟨⟨_, harg⟩, fun f hf => ?_, fun u r f hu => ?_⟩
    · split_ifs at hf with hfd
      obtain ⟨b, -, hb⟩ := hwatched f p hf
      simp_all
    · have := hargs u r f p hu
      have hf : f = fd := by simp_all
      exact hfree u r (by rw [hu]; exact ⟨rfl, hf⟩)

theorem Held.free (h : Held s) (hs : s.step .free s') : Held s' := by
  obtain ⟨p, todo, hproc, rfl⟩ := exec_free hs
  obtain ⟨hwatched, howners, hnumbered, hcalls, hargs, hapart, htodo, hnodup, hhandled,
    hdeleted, hclosed⟩ := h
  obtain ⟨harg, hint, hfree⟩ := hclosed p todo hproc
  rw [hproc] at htodo hnodup
  have hnext : (Proc.next todo).todo = todo := by cases todo <;> rfl
  have hno : ∀ q, Proc.next todo ≠ .closed q todo := by cases todo <;> simp [Proc.next]
  constructor <;> simp only [Function.update_apply, hnext]
  · grind
  · exact howners
  · exact hnumbered
  · exact hcalls
  · grind
  · exact hapart
  · exact htodo
  · exact hnodup
  · cases todo <;> exact fun _ _ hat => hat.elim
  · cases todo <;> exact fun _ _ _ he => nomatch he
  · cases todo <;> exact fun _ _ he => nomatch he

/-- **A step keeps who has what.** -/
theorem Held.step {op : PoolOp ι} (h : Held s) (hs : s.step op s') : Held s' := by
  cases op with
  | socket t fd hostname => exact h.socket hs
  | question t => exact h.question hs
  | build t random malloc => exact h.build hs
  | send t => exact h.send hs
  | calloc t p => exact h.calloc hs
  | add t ok => exact h.add hs
  | arrive fd data => exact h.arrive hs
  | wait fds => exact h.wait hs
  | recv => exact h.recv hs
  | call fuel => exact h.call hs
  | del => exact h.del hs
  | close => exact h.close hs
  | free => exact h.free hs

/-- **No step uses what is gone.** -/
theorem Held.safe (h : Held s) (op : PoolOp ι) :
    s.exec op ≠ .error .freedArg ∧ s.exec op ≠ .error .closedSocket := by
  cases op with
  -- these steps use neither an `ep_arg` nor a socket of another step
  | socket t fd hostname | question t | build t random malloc | send t | calloc t p | add t ok
  | arrive fd data | wait fds | del =>
    simp only [Pool.exec]
    grind
  | recv =>
    simp only [Pool.exec]
    cases hproc : s.proc with
    | handling todo =>
      cases todo with
      | nil => simp
      | cons p todo =>
        -- an event that is left is of a socket in the interest list, whose data are its `ep_arg`
        obtain ⟨fd, a, hint, -⟩ := h.todo p (hproc ▸ List.mem_cons_self)
        obtain ⟨b, hb, harg⟩ := h.watched fd p hint
        simp [harg, hb]
    | _ => simp
  | call fuel =>
    simp only [Pool.exec]
    cases hproc : s.proc with
    | received p fd data todo =>
      -- between `recvfrom` and the callback the `ep_arg` is still that of the socket
      obtain ⟨a, -, harg⟩ := h.arg_of_at (hproc ▸ ⟨rfl, rfl⟩ : s.proc.At p fd)
      cases hparse : dnsParseResponse fuel (received data) <;> simp [hparse, harg]
    | _ => simp
  | close =>
    simp only [Pool.exec]
    cases hproc : s.proc with
    | deleted p fd todo =>
      obtain ⟨-, ⟨a, ha, -⟩, -⟩ := h.deleted p fd todo hproc
      simp [ha]
    | _ => simp
  | free =>
    simp only [Pool.exec]
    cases hproc : s.proc with
    | closed p todo =>
      obtain ⟨⟨arg, harg⟩, -⟩ := h.closed p todo hproc
      simp [harg]
    | _ => simp

/-- **A request is only written outside of its buffer** for a hostname of more than 1006 bytes. -/
theorem exec_request {op : PoolOp ι} {f : Fault} (h : s.exec op = .error (.request f)) :
    ∃ t r fd hostname, s.commits t = .naming r fd hostname ∧ 1006 < hostname.length := by
  cases op with
  | build t random malloc =>
    simp only [Pool.exec] at h
    split at h
    · rename_i r fd hostname ht
      refine ⟨t, r, fd, hostname, ht, ?_⟩
      by_contra hlen
      obtain ⟨x, hx⟩ := makeRequest_of_length (not_lt.mp hlen) random malloc
      rw [hx] at h
      cases h
    · cases h
  | _ =>
    simp only [Pool.exec] at h
    grind

end

end Dns

end BackendStudy
