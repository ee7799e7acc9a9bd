import BackendStudy.Dns.Holders

/-!
# Every request is called back once

Any number of threads commit requests while another waits for what arrives. In any order of their
steps, an `ep_arg` is not used after it has been freed and a socket is not used after it has been
closed (`BackendStudy.Dns.run_safe`). This is up to the first time that two threads are in
`dns_create_question` at once, a hostname of more than 1006 bytes is asked for, or the parser does
not return.

The callback of a request is called at most once, with what the parser makes of the first that has
arrived for this request (`BackendStudy.Dns.run_results`). When nothing is left to do, callbacks
have been called for the requests for which something has arrived and whose call has not failed,
and for no others, and only the sockets of the others are open (`BackendStudy.Dns.run_quiet`).
-/

namespace BackendStudy

namespace Dns

open Runs

variable {ι : Type}

/-! ### What callbacks are told -/

/-- The requests whose callback has been called. -/
def Pool.done (s : Pool ι) : List ℕ := s.results.map Prod.fst

/-- A socket has been read, and is not closed yet. -/
def Proc.Past : Proc → ℕ → Prop
  | .received _ fd _ _, fd' => fd = fd'
  | .called _ fd _, fd' => fd = fd'
  | .deleted _ fd _, fd' => fd = fd'
  | _, _ => False

/-- **What callbacks have been told**, and what they will be. -/
structure Told (s : Pool ι) : Prop where
  /-- All that has arrived for a request is in the queue of its socket until it is read. -/
  unread : ∀ fd a, s.sockets fd = some a → ¬s.proc.Past fd →
    a.request ∉ s.done ∧ s.arrived a.request = a.queue
  /-- What has been read is the first that has arrived. -/
  read : ∀ p fd data todo a, s.proc = .received p fd data todo → s.sockets fd = some a →
    a.request ∉ s.done ∧ s.arrived a.request = data :: a.queue
  /-- Before a socket is closed, the callback has been called. -/
  past : ∀ p fd todo a, s.proc = .called p fd todo ∨ s.proc = .deleted p fd todo →
    s.sockets fd = some a → a.request ∈ s.done
  /-- A callback is called once. -/
  once : s.done.Nodup
  /-- It is called with the result of the first that has arrived. -/
  told : ∀ r x, (r, x) ∈ s.results → r < s.requests ∧
    ∃ d fuel, (s.arrived r).head? = some d ∧ dnsParseResponse fuel (received d) = .ok x
  /-- Nothing has arrived for requests that have not been made. -/
  quiet : ∀ r, s.requests ≤ r → s.arrived r = []
  /-- A request whose callback has not been called has its socket. -/
  every : ∀ r < s.requests, r ∈ s.done ∨ ∃ fd a, s.sockets fd = some a ∧ a.request = r

section

variable {s s' : Pool ι} {r fd p : ℕ}

theorem told_init : Told (Pool.init ι) where
  unread fd a h := absurd h (by simp [Pool.init])
  read p fd data todo a h := absurd h (by simp [Pool.init])
  past p fd todo a h := absurd h (by simp [Pool.init])
  once := List.nodup_nil
  told r x h := absurd h List.not_mem_nil
  quiet _ _ := rfl
  every r h := absurd h (Nat.not_lt_zero r)

theorem Told.lt_of_mem_done (h : Told s) (hr : r ∈ s.done) : r < s.requests := by
  obtain ⟨⟨r, x⟩, hx, rfl⟩ := List.mem_map.mp hr
  exact (h.told r x hx).1

/-- The socket that has been read is open. -/
theorem Held.open_of_past (h : Held s) (hpast : s.proc.Past fd) : ∃ a, s.sockets fd = some a := by
  cases hproc : s.proc with
  | received p f data todo =>
    obtain rfl : f = fd := by simpa [hproc, Proc.Past] using hpast
    obtain ⟨a, ha, -⟩ := h.watched f p (h.handled p f (hproc ▸ ⟨rfl, rfl⟩)).2
    exact ⟨a, ha⟩
  | called p f todo =>
    obtain rfl : f = fd := by simpa [hproc, Proc.Past] using hpast
    obtain ⟨a, ha, -⟩ := h.watched f p (h.handled p f (hproc ▸ ⟨rfl, rfl⟩)).2
    exact ⟨a, ha⟩
  | deleted p f todo =>
    obtain rfl : f = fd := by simpa [hproc, Proc.Past] using hpast
    obtain ⟨-, ⟨a, ha, -⟩, -⟩ := h.deleted p f todo hproc
    exact ⟨a, ha⟩
  | _ => simp [hproc, Proc.Past] at hpast

variable [DecidableEq ι] {t : ι} {hostname : List UInt8}

theorem Told.socket (h : Told s) (hh : Held s) (hs : s.step (.socket t fd hostname) s') :
    Told s' := by
  obtain ⟨-, hfd, rfl⟩ := exec_socket hs
  have hclosed : ¬s.proc.Past fd := fun hpast => by
    obtain ⟨a, ha⟩ := hh.open_of_past hpast
    simp [hfd] at ha
  refine ⟨fun f a ha hpast => ?_, fun p f data todo a hproc ha => ?_,
    fun p f todo a hproc ha => ?_, h.once, fun r x hx => ?_,
    fun r hr => h.quiet r (Nat.le_of_succ_le hr), fun r hr => ?_⟩
  · simp only [Pool.goto, Function.update_apply] at ha
    split_ifs at ha with hf
    · obtain rfl := Option.some.inj ha
      exact ⟨fun hr => absurd (h.lt_of_mem_done hr) (Nat.lt_irrefl _), h.quiet _ (Nat.le_refl _)⟩
    · exact h.unread f a ha hpast
  · have hf : f ≠ fd := by
      rintro rfl
      exact hclosed (show s.proc.Past f from hproc ▸ rfl)
    simp only [Pool.goto, Function.update_of_ne hf] at ha
    exact h.read p f data todo a hproc ha
  · have hf : f ≠ fd := by
      rintro rfl
      exact hclosed (hproc.elim (fun he => show s.proc.Past f from he ▸ rfl)
        fun he => show s.proc.Past f from he ▸ rfl)
    simp only [Pool.goto, Function.update_of_ne hf] at ha
    exact h.past p f todo a hproc ha
  · obtain ⟨hr, hrest⟩ := h.told r x hx
    exact ⟨Nat.lt_succ_of_lt hr, hrest⟩
  · obtain hlt | rfl := Nat.lt_succ_iff_lt_or_eq.mp hr
    · refine (h.every r hlt).imp_right ?_
      rintro ⟨f, a, ha, hreq⟩
      refine ⟨f, a, ?_, hreq⟩
      simp only [Pool.goto]
      rw [Function.update_of_ne (fun he => by simp [← he, ha] at hfd), ha]
    · exact .inr ⟨fd, _, Function.update_self _ _ _, rfl⟩

theorem Told.arrive {data : Arrival} (h : Told s) (hh : Held s)
    (hs : s.step (.arrive fd data) s') : Told s' := by
  obtain ⟨sock, hsock, rfl⟩ := exec_arrive hs
  have hlt := hh.numbered fd sock hsock
  -- only the request of this socket has more that has arrived
  have hother : ∀ f a, s.sockets f = some a → f ≠ fd → a.request ≠ sock.request :=
    fun f a ha hf he => hf (hh.owners f fd a sock ha hsock he)
  refine ⟨fun f a ha hpast => ?_, fun p f d todo a hproc ha => ?_,
    fun p f todo a hproc ha => ?_, h.once, fun r x hx => ?_, fun r hr => ?_,
    fun r hr => (h.every r hr).imp_right fun ⟨f, a, ha, hreq⟩ => ?_⟩
  · simp only [Function.update_apply] at ha ⊢
    split_ifs at ha with hf
    · obtain rfl := Option.some.inj ha
      obtain ⟨hdone, harr⟩ := h.unread fd sock hsock (hf ▸ hpast)
      exact ⟨hdone, by rw [if_pos rfl, harr]⟩
    · obtain ⟨hdone, harr⟩ := h.unread f a ha hpast
      exact ⟨hdone, by rw [if_neg (hother f a ha hf), harr]⟩
  · simp only [Function.update_apply] at ha ⊢
    split_ifs at ha with hf
    · obtain rfl := Option.some.inj ha
      obtain ⟨hdone, harr⟩ := h.read p fd d todo sock (hf ▸ hproc) hsock
      exact ⟨hdone, by rw [if_pos rfl, harr]; rfl⟩
    · obtain ⟨hdone, harr⟩ := h.read p f d todo a hproc ha
      exact ⟨hdone, by rw [if_neg (hother f a ha hf), harr]⟩
  · simp only [Function.update_apply] at ha
    split_ifs at ha with hf
    · obtain rfl := Option.some.inj ha
      exact h.past p fd todo sock (hf ▸ hproc) hsock
    · exact h.past p f todo a hproc ha
  · obtain ⟨hr, d, fuel, hd, hparse⟩ := h.told r x hx
    refine ⟨hr, d, fuel, ?_, hparse⟩
    simp only [Function.update_apply]
    split_ifs with he
    · rw [List.head?_append, ← he, hd]
      rfl
    · exact hd
  · refine (Function.update_of_ne (fun he => ?_) _ _).trans (h.quiet r hr)
    subst he
    exact absurd hlt (Nat.not_lt.mpr hr)
  · simp only [Function.update_apply]
    by_cases hf : f = fd
    · subst hf
      obtain rfl := Option.some.inj (ha.symm.trans hsock)
      exact ⟨f, _, if_pos rfl, hreq⟩
    · exact ⟨f, a, by rw [if_neg hf, ha], hreq⟩

theorem Told.wait {fds : List ℕ} (h : Told s) (hs : s.step (.wait fds) s') : Told s' := by
  obtain ⟨hproc, -, -, rfl⟩ := exec_wait hs
  exact ⟨fun f a ha _ => h.unread f a ha (by simp [hproc, Proc.Past]),
    fun p f data todo a he => (nomatch he), fun p f todo a he => by simp at he,
    h.once, h.told, h.quiet, h.every⟩

theorem Told.recv (h : Told s) (hh : Held s) (hs : s.step .recv s') : Told s' := by
  obtain ⟨p, todo, arg, sock, hproc, harg, hsock, rfl⟩ := exec_recv hs
  have hpast : ∀ f, ¬s.proc.Past f := by simp [hproc, Proc.Past]
  obtain ⟨f, a, hint, ha, hne⟩ := hh.todo p (hproc ▸ List.mem_cons_self)
  obtain ⟨b, hb, hfd⟩ := hh.watched f p hint
  obtain rfl : arg = ⟨f, b.request⟩ := Option.some.inj (harg.symm.trans hfd)
  obtain rfl : sock = a := Option.some.inj (hsock.symm.trans ha)
  obtain ⟨d, ds, hq⟩ := List.exists_cons_of_ne_nil hne
  refine ⟨fun g c hc hpast' => ?_, fun q g data todo' c he hc => ?_,
    fun q g todo' c he => by simp at he, h.once, h.told, h.quiet,
    fun r hr => (h.every r hr).imp_right fun ⟨g, c, hc, hreq⟩ => ?_⟩
  · have hg : g ≠ f := fun he => hpast' he.symm
    simp only [Function.update_of_ne hg] at hc
    exact h.unread g c hc (hpast g)
  · obtain ⟨rfl, rfl, rfl, rfl⟩ := Proc.received.inj he
    simp only [Function.update_self] at hc
    obtain rfl := Option.some.inj hc
    obtain ⟨hdone, harr⟩ := h.unread f sock hsock (hpast f)
    exact ⟨hdone, by rw [harr, hq]; rfl⟩
  · simp only [Function.update_apply]
    by_cases hg : g = f
    · subst hg
      obtain rfl := Option.some.inj (hc.symm.trans hsock)
      exact ⟨g, _, if_pos rfl, hreq⟩
    · exact ⟨g, c, by rw [if_neg hg, hc], hreq⟩

theorem Told.call {fuel : ℕ} (h : Told s) (hh : Held s) (hs : s.step (.call fuel) s') :
    Told s' := by
  obtain ⟨p, fd, data, todo, arg, x, hproc, harg, hparse, rfl⟩ := exec_call hs
  obtain ⟨a, ha, hfd⟩ := hh.watched fd p (hh.handled p fd (hproc ▸ ⟨rfl, rfl⟩)).2
  obtain rfl : arg = ⟨fd, a.request⟩ := Option.some.inj (harg.symm.trans hfd)
  obtain ⟨hdone, harr⟩ := h.read p fd data todo a hproc ha
  have hmem : ∀ r, r ∈ (s.results ++ [(a.request, x)]).map Prod.fst ↔
      r ∈ s.done ∨ r = a.request := by simp [Pool.done]
  refine ⟨fun g c hc hpast => ?_, fun q g data todo a he => (nomatch he),
    fun q g todo c he hc => ?_, ?_, fun r y hy => ?_, h.quiet,
    fun r hr => (h.every r hr).imp_left fun hr => (hmem r).mpr (.inl hr)⟩
  · have hg : g ≠ fd := fun he => hpast he.symm
    obtain ⟨hnot, hq⟩ := h.unread g c hc (by simpa [hproc, Proc.Past] using hg.symm)
    refine ⟨fun hr => ?_, hq⟩
    obtain hr | hr := (hmem _).mp hr
    · exact hnot hr
    · exact hg (hh.owners g fd c a hc ha hr)
  · obtain ⟨-, rfl, -⟩ : p = q ∧ fd = g ∧ _ := by simpa using he
    obtain rfl := Option.some.inj (hc.symm.trans ha)
    exact (hmem _).mpr (.inr rfl)
  · rw [Pool.done, List.map_append]
    refine List.nodup_append.mpr ⟨h.once, List.nodup_singleton _, ?_⟩
    rintro r hr _ hr' rfl
    have he : r = a.request := List.mem_singleton.mp hr'
    exact hdone (he ▸ hr)
  · obtain hy | hy := List.mem_append.mp hy
    · exact h.told r y hy
    · obtain ⟨rfl, rfl⟩ := Prod.mk.inj (List.mem_singleton.mp hy)
      exact ⟨hh.numbered fd a ha, data, fuel, by rw [harr]; rfl, hparse⟩

theorem Told.del (h : Told s) (hs : s.step .del s') : Told s' := by
  obtain ⟨p, fd, todo, hproc, rfl⟩ := exec_del hs
  refine ⟨fun g c hc hpast => h.unread g c hc (hproc ▸ hpast),
    fun q g data todo a he => (nomatch he), fun q g todo' c he hc => ?_,
    h.once, h.told, h.quiet, h.every⟩
  obtain ⟨-, rfl, -⟩ : p = q ∧ fd = g ∧ _ := by simpa using he
  exact h.past p fd todo c (.inl hproc) hc

theorem Told.close (h : Told s) (hh : Held s) (hs : s.step .close s') : Told s' := by
  obtain ⟨p, fd, todo, hproc, rfl⟩ := exec_close hs
  obtain ⟨-, ⟨a, ha, -⟩, -⟩ := hh.deleted p fd todo hproc
  have hdone := h.past p fd todo a (.inr hproc) ha
  refine ⟨fun g c hc _ => ?_, fun q g data todo a he => (nomatch he),
    fun q g todo a he => by simp at he, h.once, h.told, h.quiet, fun r hr => ?_⟩
  · simp only [Function.update_apply] at hc
    split_ifs at hc with hg
    exact h.unread g c hc (by simpa [hproc, Proc.Past] using Ne.symm hg)
  · obtain hr | ⟨g, c, hc, rfl⟩ := h.every r hr
    · exact .inl hr
    · by_cases hg : g = fd
      · subst hg
        exact .inl (Option.some.inj (ha.symm.trans hc) ▸ hdone)
      · exact .inr ⟨g, c, (Function.update_of_ne hg _ _).trans hc, rfl⟩

theorem Told.free (h : Told s) (hs : s.step .free s') : Told s' := by
  obtain ⟨p, todo, hproc, rfl⟩ := exec_free hs
  refine ⟨fun g c hc _ => h.unread g c hc (by simp [hproc, Proc.Past]),
    fun q g data todo' a he => ?_, fun q g todo' a he => ?_, h.once, h.told, h.quiet, h.every⟩
  · cases todo <;> cases he
  · cases todo <;> obtain he | he := he <;> cases he

/-- A step of a call that is not its first does not matter to callbacks. -/
theorem Told.step {op : PoolOp ι} (h : Told s) (hh : Held s) (hs : s.step op s') : Told s' := by
  cases op with
  | socket t fd hostname => exact h.socket hh hs
  | question t =>
    obtain ⟨r, fd, hostname, -, rfl⟩ := exec_question hs
    exact ⟨h.unread, h.read, h.past, h.once, h.told, h.quiet, h.every⟩
  | build t random malloc =>
    obtain ⟨r, fd, hostname, -, rfl⟩ := exec_build hs
    exact ⟨h.unread, h.read, h.past, h.once, h.told, h.quiet, h.every⟩
  | send t =>
    obtain ⟨r, fd, -, rfl⟩ := exec_send hs
    exact ⟨h.unread, h.read, h.past, h.once, h.told, h.quiet, h.every⟩
  | calloc t p =>
    obtain ⟨r, fd, -, ⟨-, rfl⟩ | ⟨q, -, -, rfl⟩⟩ := exec_calloc hs <;>
      exact ⟨h.unread, h.read, h.past, h.once, h.told, h.quiet, h.every⟩
  | add t ok =>
    obtain ⟨r, fd, p, -, ⟨-, rfl⟩ | rfl⟩ := exec_add hs <;>
      exact ⟨h.unread, h.read, h.past, h.once, h.told, h.quiet, h.every⟩
  | arrive fd data => exact h.arrive hh hs
  | wait fds => exact h.wait hs
  | recv => exact h.recv hh hs
  | call fuel => exact h.call hh hs
  | del => exact h.del hs
  | close => exact h.close hh hs
  | free => exact h.free hs

end

/-! ### What is left -/

/-- **Nothing is left behind**, except by calls that have returned `-1`. -/
structure Kept (s : Pool ι) : Prop where
  /-- Who has an open socket. -/
  sockets : ∀ fd a, s.sockets fd = some a → a.request ∈ s.failed ∨
    (∃ t, (s.commits t).Has a.request fd) ∨ (∃ p, s.interest fd = some p) ∨
      ∃ p todo, s.proc = .deleted p fd todo
  /-- Who has an `ep_arg`. -/
  args : ∀ p arg, s.args p = some arg → arg.cb ∈ s.failed ∨
    (∃ t, s.commits t = .allocated arg.cb arg.sockfd p) ∨ (∃ fd, s.interest fd = some p) ∨
      (∃ fd todo, s.proc = .deleted p fd todo) ∨ ∃ todo, s.proc = .closed p todo
  /-- Nobody has the socket of a call that has returned `-1`. -/
  lost : ∀ r ∈ s.failed, ∃ fd a, s.sockets fd = some a ∧ a.request = r ∧ s.interest fd = none ∧
    (∀ t r', ¬(s.commits t).Has r' fd) ∧ ∀ p todo, s.proc ≠ .deleted p fd todo

section

variable {s s' : Pool ι} {r fd p : ℕ}

theorem kept_init : Kept (Pool.init ι) where
  sockets fd a h := absurd h (by simp [Pool.init])
  args p arg h := absurd h (by simp [Pool.init])
  lost r h := absurd h List.not_mem_nil

theorem Kept.requeue {a b : Socket} (h : Kept s) (ha : s.sockets fd = some a)
    (hb : b.request = a.request) :
    Kept { s with sockets := Function.update s.sockets fd (some b) } := by
  obtain ⟨hsockets, hargs, hlost⟩ := h
  constructor <;> simp only [Function.update_apply]
  · grind
  · exact hargs
  · grind

/-- The waiting thread goes on, and leaves everything as it is. -/
theorem Kept.goOn {c : Proc} (h : Kept s)
    (hdel : ∀ p fd todo, s.proc ≠ .deleted p fd todo ∧ c ≠ .deleted p fd todo)
    (hclosed : ∀ p todo, s.proc ≠ .closed p todo) : Kept { s with proc := c } := by
  obtain ⟨hsockets, hargs, hlost⟩ := h
  constructor <;> simp only
  · grind
  · grind
  · grind

variable [DecidableEq ι] {t : ι} {hostname : List UInt8}

theorem Kept.socket (h : Kept s) (hs : s.step (.socket t fd hostname) s') : Kept s' := by
  obtain ⟨ht, hfd, rfl⟩ := exec_socket hs
  obtain ⟨hsockets, hargs, hlost⟩ := h
  constructor <;> simp only [Pool.goto, Function.update_apply]
  · grind [Commit.Has]
  · grind
  · grind [Commit.Has]

theorem Kept.goto {c : Commit} (h : Kept s)
    (hhas : ∀ r fd, c.Has r fd ↔ (s.commits t).Has r fd)
    (hfresh : ∀ r fd p, s.commits t ≠ .allocated r fd p) : Kept (s.goto t c) := by
  have hsame : ∀ u r fd, ((s.goto t c).commits u).Has r fd ↔ (s.commits u).Has r fd := by
    intro u r fd
    simp only [Pool.goto, Function.update_apply]
    split_ifs with hu
    · rw [hu, hhas]
    · rfl
  refine ⟨fun f a ha => ?_, fun p arg harg => ?_, fun r hr => ?_⟩
  · simp only [hsame]
    exact h.sockets f a ha
  · refine (h.args p arg harg).imp_right (Or.imp_left ?_)
    rintro ⟨u, hu⟩
    refine ⟨u, (Function.update_of_ne ?_ _ _).trans hu⟩
    rintro rfl
    exact hfresh _ _ _ hu
  · obtain ⟨f, a, ha, hreq, hnone, hfree, hdel⟩ := h.lost r hr
    exact ⟨f, a, ha, hreq, hnone, fun u r' => mt (hsame u r' f).mp (hfree u r'), hdel⟩

/-- A call goes on to make its request, and the static variable changes hands. -/
theorem Kept.naming {c : Commit} {u : Option ι} (h : Kept s)
    (hhas : ∀ r fd, c.Has r fd ↔ (s.commits t).Has r fd)
    (hfresh : ∀ r fd p, s.commits t ≠ .allocated r fd p) :
    Kept ({ s with strtok := u }.goto t c) :=
  Kept.goto ⟨h.1, h.2, h.3⟩ hhas hfresh

theorem Kept.question (h : Kept s) (hs : s.step (.question t) s') : Kept s' := by
  obtain ⟨r, fd, hostname, ht, rfl⟩ := exec_question hs
  refine h.naming (fun r' fd' => ?_) fun r' fd' p he => ?_
  · rw [ht]
    rfl
  · simp [ht] at he

theorem Kept.build {random : ℕ} {malloc : Bool} (h : Kept s)
    (hs : s.step (.build t random malloc) s') : Kept s' := by
  obtain ⟨r, fd, hostname, ht, rfl⟩ := exec_build hs
  refine h.naming (fun r' fd' => ?_) fun r' fd' p he => ?_
  · rw [ht]
    rfl
  · simp [ht] at he

theorem Kept.send (h : Kept s) (hs : s.step (.send t) s') : Kept s' := by
  obtain ⟨r, fd, ht, rfl⟩ := exec_send hs
  refine h.goto (fun r' fd' => ?_) fun r' fd' p he => ?_
  · rw [ht]
    rfl
  · simp [ht] at he

/-- A call returns `-1`, and leaves its socket and its `ep_arg`. -/
theorem Kept.failed (h : Kept s) (hh : Held s) (hhas : (s.commits t).Has r fd) :
    Kept ({ s with failed := r :: s.failed }.goto t .idle) := by
  obtain ⟨hnone, a, ha, hreq⟩ := hh.calls t r fd hhas
  -- what the call had is now of a request that has failed
  have hmine : ∀ f c, s.sockets f = some c → (s.commits t).Has c.request f → c.request = r := by
    intro f c hc hf
    obtain ⟨-, -⟩ := hh.calls t _ f hf
    cases hct : s.commits t with
    | idle => exact (hct ▸ hf : Commit.Has .idle _ _).elim
    | opened r' f' n =>
      rw [hct] at hf hhas
      exact hf.1.symm.trans hhas.1
    | naming r' f' n =>
      rw [hct] at hf hhas
      exact hf.1.symm.trans hhas.1
    | built r' f' =>
      rw [hct] at hf hhas
      exact hf.1.symm.trans hhas.1
    | sent r' f' =>
      rw [hct] at hf hhas
      exact hf.1.symm.trans hhas.1
    | allocated r' f' q =>
      rw [hct] at hf hhas
      exact hf.1.symm.trans hhas.1
  refine ⟨fun f c hc => ?_, fun p arg harg => ?_, fun r' hr' => ?_⟩
  · obtain hf | ⟨u, hu⟩ | hrest := h.sockets f c hc
    · exact .inl (List.mem_cons_of_mem _ hf)
    · by_cases hut : u = t
      · exact .inl (hmine f c hc (hut ▸ hu) ▸ List.mem_cons_self)
      · refine .inr (.inl ⟨u, ?_⟩)
        simpa [Pool.goto, Function.update_of_ne hut] using hu
    · exact .inr (.inr hrest)
  · obtain hf | ⟨u, hu⟩ | hrest := h.args p arg harg
    · exact .inl (List.mem_cons_of_mem _ hf)
    · by_cases hut : u = t
      · obtain ⟨-, c, hc, hcr⟩ := hh.calls t arg.cb arg.sockfd (hut ▸ hu ▸ ⟨rfl, rfl⟩)
        have := hmine _ c hc (hcr ▸ hut ▸ hu ▸ ⟨rfl, rfl⟩)
        exact .inl (hcr ▸ this ▸ List.mem_cons_self)
      · exact .inr (.inl ⟨u, (Function.update_of_ne hut _ _).trans hu⟩)
    · exact .inr (.inr hrest)
  · obtain rfl | hr' := List.mem_cons.mp hr'
    · refine ⟨fd, a, ha, hreq, hnone, fun u r'' hu => ?_, fun p todo hproc =>
        (hh.deleted p fd todo hproc).2.2 t r' hhas⟩
      simp only [Pool.goto, Function.update_apply] at hu
      split_ifs at hu with hut
      · exact hu
      · exact hut (hh.apart u t r'' r' fd hu hhas)
    · obtain ⟨f, c, hc, hcr, hcn, hfree, hdel⟩ := h.lost r' hr'
      refine ⟨f, c, hc, hcr, hcn, fun u r'' hu => ?_, hdel⟩
      simp only [Pool.goto, Function.update_apply] at hu
      split_ifs at hu with hut
      · exact hu
      · exact hfree u r'' hu

/-- A new `ep_arg` of a call. -/
theorem Kept.allocate {q : ℕ} (h : Kept s) (ht : s.commits t = .sent r fd) (hq : s.args q = none) :
    Kept ({ s with args := Function.update s.args q (some ⟨fd, r⟩) }.goto t
      (.allocated r fd q)) := by
  obtain ⟨hsockets, -, hlost⟩ := h.goto (c := .allocated r fd q) (t := t)
    (fun r' fd' => by rw [ht]; rfl) fun r' fd' p he => by simp [ht] at he
  refine ⟨hsockets, fun p arg harg => ?_, hlost⟩
  by_cases hp : p = q
  · subst hp
    simp only [Pool.goto, Function.update_self, Option.some.injEq] at harg
    subst harg
    exact .inr (.inl ⟨t, Function.update_self _ _ _⟩)
  · simp only [Pool.goto, Function.update_of_ne hp] at harg
    refine (h.args p arg harg).imp_right (Or.imp_left ?_)
    rintro ⟨u, hu⟩
    refine ⟨u, (Function.update_of_ne ?_ _ _).trans hu⟩
    rintro rfl
    simp [ht] at hu

theorem Kept.calloc {q : Option ℕ} (h : Kept s) (hh : Held s) (hs : s.step (.calloc t q) s') :
    Kept s' := by
  obtain ⟨r, fd, ht, ⟨-, rfl⟩ | ⟨q, -, hq, rfl⟩⟩ := exec_calloc hs
  · exact h.failed hh (show (s.commits t).Has r fd from ht ▸ ⟨rfl, rfl⟩)
  · exact h.allocate ht hq

theorem Kept.add {ok : Bool} (h : Kept s) (hh : Held s) (hs : s.step (.add t ok) s') :
    Kept s' := by
  obtain ⟨r, fd, p, ht, ⟨hnone, rfl⟩ | rfl⟩ := exec_add hs
  · obtain ⟨hsockets, hargs, hlost⟩ := h
    have hhas : (s.commits t).Has r fd := ht ▸ ⟨rfl, rfl⟩
    constructor <;> simp only [Pool.goto, Function.update_apply]
    · grind [Commit.Has]
    · grind
    · grind [Commit.Has]
  · exact h.failed hh (show (s.commits t).Has r fd from ht ▸ ⟨rfl, rfl⟩)

theorem Kept.arrive {data : Arrival} (h : Kept s) (hs : s.step (.arrive fd data) s') :
    Kept s' := by
  obtain ⟨sock, hsock, rfl⟩ := exec_arrive hs
  obtain ⟨h₁, h₂, h₃⟩ := h.requeue (b := ⟨sock.request, sock.queue ++ [data]⟩) hsock rfl
  exact ⟨h₁, h₂, h₃⟩

theorem Kept.wait {fds : List ℕ} (h : Kept s) (hs : s.step (.wait fds) s') : Kept s' := by
  obtain ⟨hproc, -, -, rfl⟩ := exec_wait hs
  exact h.goOn (by simp [hproc]) (by simp [hproc])

theorem Kept.recv (h : Kept s) (hs : s.step .recv s') : Kept s' := by
  obtain ⟨p, todo, arg, sock, hproc, -, hsock, rfl⟩ := exec_recv hs
  have hgo := h.goOn (c := .received p arg.sockfd (sock.queue.headD none) todo)
    (by simp [hproc]) (by simp [hproc])
  exact hgo.requeue hsock rfl

theorem Kept.call {fuel : ℕ} (h : Kept s) (hs : s.step (.call fuel) s') : Kept s' := by
  obtain ⟨p, fd, data, todo, arg, x, hproc, -, -, rfl⟩ := exec_call hs
  obtain ⟨h₁, h₂, h₃⟩ := h.goOn (c := .called p fd todo) (by simp [hproc]) (by simp [hproc])
  exact ⟨h₁, h₂, h₃⟩

theorem Kept.del (h : Kept s) (hh : Held s) (hs : s.step .del s') : Kept s' := by
  obtain ⟨p, fd, todo, hproc, rfl⟩ := exec_del hs
  have hint := (hh.handled p fd (hproc ▸ ⟨rfl, rfl⟩)).2
  obtain ⟨hsockets, hargs, hlost⟩ := h
  constructor <;> simp only [Function.update_apply]
  · grind
  · grind
  · grind

theorem Kept.close (h : Kept s) (hh : Held s) (hs : s.step .close s') : Kept s' := by
  obtain ⟨p, fd, todo, hproc, rfl⟩ := exec_close hs
  obtain ⟨hnone, -, -⟩ := hh.deleted p fd todo hproc
  have hkeep : Function.update s.interest fd none = s.interest :=
    Function.update_eq_self_iff.mpr hnone.symm
  refine ⟨fun f a ha => ?_, fun q arg harg => ?_, fun r hr => ?_⟩
  · simp only [Function.update_apply] at ha
    split_ifs at ha with hf
    rw [hkeep]
    obtain hf' | hu | hint | ⟨q, t, he⟩ := h.sockets f a ha
    · exact .inl hf'
    · exact .inr (.inl hu)
    · exact .inr (.inr (.inl hint))
    · rw [hproc] at he
      exact absurd (Proc.deleted.inj he).2.1.symm hf
  · rw [hkeep]
    obtain hf' | hu | hint | ⟨f, t, he⟩ | ⟨t, he⟩ := h.args q arg harg
    · exact .inl hf'
    · exact .inr (.inl hu)
    · exact .inr (.inr (.inl hint))
    · rw [hproc] at he
      exact .inr (.inr (.inr (.inr ⟨todo, (Proc.deleted.inj he).1 ▸ rfl⟩)))
    · simp [hproc] at he
  · obtain ⟨f, a, ha, hreq, hint, hfree, hdel⟩ := h.lost r hr
    have hf : f ≠ fd := fun he => hdel p todo (he ▸ hproc)
    exact ⟨f, a, (Function.update_of_ne hf _ _).trans ha, hreq, by rw [hkeep, hint], hfree,
      fun q t he => nomatch he⟩

theorem Kept.free (h : Kept s) (hs : s.step .free s') : Kept s' := by
  obtain ⟨p, todo, hproc, rfl⟩ := exec_free hs
  have hno : ∀ q f t, Proc.next todo ≠ .deleted q f t := by cases todo <;> simp [Proc.next]
  obtain ⟨hsockets, hargs, hlost⟩ := h
  constructor <;> simp only [Function.update_apply]
  · grind
  · grind
  · grind

/-- **A step leaves nothing behind.** -/
theorem Kept.step {op : PoolOp ι} (h : Kept s) (hh : Held s) (hs : s.step op s') : Kept s' := by
  cases op with
  | socket t fd hostname => exact h.socket hs
  | question t => exact h.question hs
  | build t random malloc => exact h.build hs
  | send t => exact h.send hs
  | calloc t p => exact h.calloc hh hs
  | add t ok => exact h.add hh hs
  | arrive fd data => exact h.arrive hs
  | wait fds => exact h.wait hs
  | recv => exact h.recv hs
  | call fuel => exact h.call hs
  | del => exact h.del hh hs
  | close => exact h.close hh hs
  | free => exact h.free hs

/-! ### Runs -/

variable {ops : List (PoolOp ι)}

/-- What holds in every run. -/
structure Sound (s : Pool ι) : Prop where
  held : Held s
  told : Told s
  kept : Kept s

theorem run_sound (h : Run Pool.step (Pool.init ι) ops s) : Sound s :=
  h.invariant ⟨held_init, told_init, kept_init⟩ fun _ _ _ hi hs =>
    ⟨hi.held.step hs, hi.told.step hi.held hs, hi.kept.step hi.held hs⟩

/-- Two threads: the second request has the socket of the first, and its call fails. -/
def twoOps : List (PoolOp Bool) :=
  [.socket true 3 [97, 46, 98], .question true, .build true 7 true, .send true,
    .calloc true (some 7), .add true true, .arrive 3 (some [1, 2]), .wait [3], .recv,
    .arrive 3 none, .call 1, .del, .close, .socket false 3 [99], .question false, .free,
    .build false 8 false, .send false, .calloc false none]

set_option maxRecDepth 8000 in
theorem exists_two : ∃ s, Run Pool.step (Pool.init Bool) twoOps s ∧
    (s.requests, s.failed, s.results, s.proc, s.commits true, s.commits false) =
      (2, [1], [(0, ⟨0, []⟩)], .waiting, .idle, .idle) ∧ ∀ fd, s.interest fd = none := by
  have hex : ∃ s, Run (guard (fun _ _ => True) Pool.step) (Pool.init Bool) twoOps s ∧
      ((s.requests, s.failed, s.results, s.proc, s.commits true, s.commits false), s.interest) =
        ((2, [1], [(0, ⟨0, []⟩)], .waiting, .idle, .idle),
          Function.update (Function.update (Function.update (fun _ => none) 3 (some 7)) 3 none)
            3 none) := exists_run_guard_ok (by with_unfolding_all rfl)
  obtain ⟨s, hrun, hs⟩ := hex
  obtain ⟨hs, hint⟩ := Prod.mk.inj hs
  refine ⟨s, hrun.unguard, hs, fun fd => ?_⟩
  rw [hint]
  by_cases hfd : fd = 3 <;> simp [hfd]

/-- **Nothing is used after it has been freed.** Whatever the order of the steps of any number of
threads, no step uses an `ep_arg` that has been freed, or reads from or closes a socket that is
closed, and a request is only written outside of its buffer for a hostname of more than 1006
bytes. -/
theorem run_safe (h : Run Pool.step (Pool.init ι) ops s) (op : PoolOp ι) :
    s.exec op ≠ .error .freedArg ∧ s.exec op ≠ .error .closedSocket ∧
      ∀ f, s.exec op = .error (.request f) →
        ∃ t r fd hostname, s.commits t = .naming r fd hostname ∧ 1006 < hostname.length :=
  ⟨((run_sound h).held.safe op).1, ((run_sound h).held.safe op).2, fun _ => exec_request⟩

theorem run_safe_two : ∃ s : Pool Bool, Run Pool.step (Pool.init Bool) twoOps s ∧
    s.exec .recv ≠ .error .freedArg := by
  obtain ⟨s, hrun, -⟩ := exists_two
  exact ⟨s, hrun, (run_safe hrun .recv).1⟩

/-- **When nothing is left to do**, callbacks have been called for the requests for which something
has arrived and whose call has not returned `-1`, and for no others. The sockets that are open are
those of the other requests, and no `ep_arg` is left but of these. -/
theorem run_quiet (h : Run Pool.step (Pool.init ι) ops s) (hidle : ∀ t, s.commits t = .idle)
    (hproc : s.proc = .waiting) (hready : ∀ fd, ¬s.ready fd) (r : ℕ) (hr : r < s.requests) :
    (r ∈ s.results.map Prod.fst ↔ r ∉ s.failed ∧ s.arrived r ≠ []) ∧
      ((∃ fd a, s.sockets fd = some a ∧ a.request = r) ↔ r ∈ s.failed ∨ s.arrived r = []) ∧
      ((∃ p arg, s.args p = some arg ∧ arg.cb = r) → r ∈ s.failed ∨ s.arrived r = []) := by
  obtain ⟨hh, ht, hk⟩ := run_sound h
  -- the socket of a request that is open has not been read
  have hopen : ∀ fd a, s.sockets fd = some a → a.request = r →
      r ∉ s.done ∧ (r ∈ s.failed ∨ s.arrived r = []) := by
    rintro fd a ha rfl
    obtain ⟨hdone, harr⟩ := ht.unread fd a ha (by simp [hproc, Proc.Past])
    refine ⟨hdone, ?_⟩
    obtain hf | ⟨t, hu⟩ | ⟨p, hint⟩ | ⟨p, todo, he⟩ := hk.sockets fd a ha
    · exact .inl hf
    · rw [hidle t] at hu
      exact hu.elim
    · have hq := hready fd
      simp [Pool.ready, hint, ha] at hq
      exact .inr (harr.trans hq)
    · simp [hproc] at he
  have hdone : r ∈ s.done → r ∉ s.failed ∧ s.arrived r ≠ [] := by
    intro hd
    refine ⟨fun hf => ?_, fun he => ?_⟩
    · obtain ⟨fd, a, ha, hreq, -⟩ := hk.lost r hf
      exact (hopen fd a ha hreq).1 hd
    · obtain ⟨⟨r, x⟩, hx, rfl⟩ := List.mem_map.mp hd
      obtain ⟨-, d, fuel, hhead, -⟩ := ht.told r x hx
      simp [he] at hhead
  have harg : (∃ p arg, s.args p = some arg ∧ arg.cb = r) → r ∈ s.failed ∨ s.arrived r = [] := by
    rintro ⟨p, arg, harg, hcb⟩
    obtain hf | ⟨t, hu⟩ | ⟨fd, hint⟩ | ⟨fd, todo, he⟩ | ⟨todo, he⟩ := hk.args p arg harg
    · exact .inl (hcb ▸ hf)
    · simp [hidle t] at hu
    · obtain ⟨a, ha, harg'⟩ := hh.watched fd p hint
      obtain rfl : arg = ⟨fd, a.request⟩ := Option.some.inj (harg.symm.trans harg')
      exact (hopen fd a ha hcb).2
    · simp [hproc] at he
    · simp [hproc] at he
  obtain hd | ⟨fd, a, ha, hreq⟩ := ht.every r hr
  · obtain ⟨hf, harr⟩ := hdone hd
    refine ⟨iff_of_true hd ⟨hf, harr⟩, iff_of_false ?_ (not_or.mpr ⟨hf, harr⟩), harg⟩
    rintro ⟨fd, a, ha, hreq⟩
    exact (hopen fd a ha hreq).1 hd
  · obtain ⟨hnot, hrest⟩ := hopen fd a ha hreq
    exact ⟨iff_of_false hnot fun hboth => hrest.elim hboth.1 hboth.2,
      iff_of_true ⟨fd, a, ha, hreq⟩ hrest, harg⟩

theorem run_quiet_two : ∃ s, Run Pool.step (Pool.init Bool) twoOps s ∧ s.arrived 0 ≠ [] ∧
    ∃ fd a, s.sockets fd = some a ∧ a.request = 1 := by
  obtain ⟨s, hrun, hs, hint⟩ := exists_two
  simp only [Prod.mk.injEq] at hs
  obtain ⟨hrequests, hfailed, hresults, hproc, htrue, hfalse⟩ := hs
  have hidle : ∀ t, s.commits t = .idle := fun t => by cases t <;> assumption
  have hready : ∀ fd, ¬s.ready fd := fun fd => by simp [Pool.ready, hint fd]
  have hquiet := run_quiet hrun hidle hproc hready
  refine ⟨s, hrun, ((hquiet 0 (by omega)).1.mp (by simp [hresults])).2, ?_⟩
  exact (hquiet 1 (by omega)).2.1.mpr (.inl (by simp [hfailed]))

end

end Dns

end BackendStudy
