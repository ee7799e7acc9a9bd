import BackendStudy.Memleak.Model

/-!
# What the directory says

As long as nothing has been reported, a block has a file exactly if it is in use and no thread is
between the allocator and the directory with it (`BackendStudy.Memleak.Inv`). This holds in any
order of the steps of any number of threads, whatever they free, if no `open` fails. So when all
threads are back in the program the files are the blocks in use, each with the record of the call
that has allocated it (`BackendStudy.Memleak.run_leaks`), as it is if it has at most 254 characters
(`BackendStudy.Memleak.written_eq`).

It follows that the first report is never of a block that is in use and in nobody else's hands,
that a pointer to anything else is reported, and that no block is given back that is not in use
before there is a report (`BackendStudy.Memleak.run_reports`).
-/

namespace BackendStudy

namespace Memleak

open Runs

variable {ι : Type}

/-- A thread is between the allocator and the directory with a block. -/
def Phase.Holds : Phase → UInt64 → Prop
  | .allocated q _, p => q = p
  | .unlinked q, p => q = p
  | _, _ => False

/-- The record of the last call that has allocated a block. -/
def lastRecord (p : UInt64) (ops : List (Op ι)) : List Char :=
  ops.foldl (fun text op => match op with
    | .malloc _ size file line q => if q = p then record size file line else text
    | _ => text) []

/-- **The directory and the blocks**, before anything has been reported. -/
structure Inv (ops : List (Op ι)) (s : Detector ι) : Prop where
  /-- The blocks with a file are those in use that no thread holds. -/
  files : ∀ p, (s.mem (filename p)).isSome ↔ p ∈ s.live ∧ ∀ t, ¬(s.threads t).Holds p
  /-- There are no other files. -/
  names : ∀ name, (s.mem name).isSome → ∃ p, name = filename p
  /-- The blocks that threads hold are in use. -/
  held : ∀ t p, (s.threads t).Holds p → p ∈ s.live
  /-- A block is held by one thread. -/
  one : ∀ t t' p, (s.threads t).Holds p → (s.threads t').Holds p → t = t'
  /-- A block is in use once. -/
  nodup : s.live.Nodup
  /-- `NULL` is no block. -/
  null : 0 ∉ s.live
  /-- A thread that is to open a file has the record of its block. -/
  texts : ∀ t p text, s.threads t = .allocated p text → text = lastRecord p ops
  /-- The files have been made. -/
  made : ∀ name fd c, s.mem name = some (fd, c) → fd < s.files
  /-- Open files have been made. -/
  fds : ∀ t p fd text, s.threads t = .opened p fd text → fd < s.files
  /-- The file of a block has its record, or a thread is to write it. -/
  contents : ∀ p fd c, s.mem (filename p) = some (fd, c) →
    (∀ t text, s.threads t = .opened p fd text → text = lastRecord p ops) ∧
      (c = written (lastRecord p ops) ∨ c = [] ∧ ∃ t text, s.threads t = .opened p fd text)

section

variable {s s' : Detector ι} {ops : List (Op ι)} {t u : ι} {p q : UInt64} {size fd : ℕ}
  {file text : List Char} {line : ℤ} {phase : Phase}

/-! ### The steps -/

@[simp] theorem openFile_threads {name : List Char} : (s.openFile name).2.threads = s.threads := by
  unfold Detector.openFile
  split <;> rfl

@[simp] theorem openFile_live {name : List Char} : (s.openFile name).2.live = s.live := by
  unfold Detector.openFile
  split <;> rfl

@[simp] theorem openFile_reports {name : List Char} : (s.openFile name).2.reports = s.reports := by
  unfold Detector.openFile
  split <;> rfl

/-- A new file. -/
theorem openFile_new {name : List Char} (h : s.mem name = none) : s.openFile name = (s.files,
    { s with mem := Function.update s.mem name (some (s.files, [])), files := s.files + 1 }) := by
  rw [Detector.openFile, h]

@[simp] theorem writeFile_threads {name bytes : List Char} :
    (s.writeFile name fd bytes).threads = s.threads := by
  unfold Detector.writeFile
  split
  · split_ifs <;> rfl
  · rfl

@[simp] theorem writeFile_live {name bytes : List Char} :
    (s.writeFile name fd bytes).live = s.live := by
  unfold Detector.writeFile
  split
  · split_ifs <;> rfl
  · rfl

@[simp] theorem writeFile_files {name bytes : List Char} :
    (s.writeFile name fd bytes).files = s.files := by
  unfold Detector.writeFile
  split
  · split_ifs <;> rfl
  · rfl

@[simp] theorem writeFile_reports {name bytes : List Char} :
    (s.writeFile name fd bytes).reports = s.reports := by
  unfold Detector.writeFile
  split
  · split_ifs <;> rfl
  · rfl

/-- What is in the directory after a write. -/
theorem writeFile_mem {name name' bytes : List Char} :
    (s.writeFile name fd bytes).mem name' = if name' = name then
      (s.mem name).map fun x => if x.1 = fd then (fd, bytes ++ x.2.drop bytes.length) else x
    else s.mem name' := by
  unfold Detector.writeFile
  split
  · rename_i fd' old hmem
    split_ifs with hfd hname hname
    · simp [hname, hmem, hfd]
    · simp [hname]
    · simp [hname, hmem, hfd]
    · rfl
  · rename_i hmem
    split_ifs with hname
    · simp [hname, hmem]
    · rfl

theorem inv_start : Inv [] (Detector.start ι) where
  files p := by simp [Detector.start]
  names name h := by simp [Detector.start] at h
  held t p h := h.elim
  one t t' p h := h.elim
  nodup := List.nodup_nil
  null := by simp [Detector.start]
  texts t p text h := by simp [Detector.start] at h
  made name fd c h := by simp [Detector.start] at h
  fds t p fd text h := by simp [Detector.start] at h
  contents p fd c h := by simp [Detector.start] at h

theorem lastRecord_append {op : Op ι} (hop : ∀ t size file line, op ≠ .malloc t size file line p) :
    lastRecord p (ops ++ [op]) = lastRecord p ops := by
  rw [lastRecord, List.foldl_append]
  cases op with
  | malloc t size file line q =>
    have hq : q ≠ p := by
      rintro rfl
      exact hop t size file line rfl
    exact if_neg hq
  | _ => rfl

theorem lastRecord_malloc :
    lastRecord p (ops ++ [.malloc t size file line p]) = record size file line := by
  rw [lastRecord, List.foldl_append]
  exact if_pos rfl

variable [DecidableEq ι]

@[simp] theorem goto_threads :
    (s.goto t phase).threads u = if u = t then phase else s.threads u :=
  Function.update_apply _ _ _ _

@[simp] theorem goto_live : (s.goto t phase).live = s.live := rfl

@[simp] theorem goto_mem : (s.goto t phase).mem = s.mem := rfl

@[simp] theorem goto_files : (s.goto t phase).files = s.files := rfl

@[simp] theorem goto_reports : (s.goto t phase).reports = s.reports := rfl

theorem step_malloc (h : s.step (.malloc t size file line p) s') :
    s.threads t = .idle ∧ (p = 0 ∧ s' = s ∨ p ≠ 0 ∧ p ∉ s.live ∧
      s' = { s with live := p :: s.live }.goto t (.allocated p (record size file line))) := by
  unfold Detector.step Detector.exec at h
  simp only at h
  split at h
  · split_ifs at h with hp hlive
    · exact ⟨‹_›, .inl ⟨hp, (Except.ok.inj h).symm⟩⟩
    · exact ⟨‹_›, .inr ⟨hp, hlive, (Except.ok.inj h).symm⟩⟩
  · cases h

theorem step_open (h : s.step (.openFile t true) s') : ∃ p text, s.threads t = .allocated p text ∧
    s' = (s.openFile (filename p)).2.goto t (.opened p (s.openFile (filename p)).1 text) := by
  unfold Detector.step Detector.exec at h
  simp only at h
  split at h
  · exact ⟨_, _, ‹_›, (Except.ok.inj h).symm⟩
  · cases h

theorem step_write (h : s.step (.write t) s') : ∃ p fd text, s.threads t = .opened p fd text ∧
    s' = (s.writeFile (filename p) fd (written text)).goto t .idle := by
  unfold Detector.step Detector.exec at h
  simp only at h
  split at h
  · split_ifs at h
    exact ⟨_, _, _, ‹_›, (Except.ok.inj h).symm⟩
  · cases h

theorem step_free (h : s.step (.free t p file line) s') :
    s.threads t = .idle ∧ s' = s.goto t (.entered p file line) := by
  unfold Detector.step Detector.exec at h
  simp only at h
  split at h
  · exact ⟨‹_›, (Except.ok.inj h).symm⟩
  · cases h

theorem step_unlink (h : s.step (.unlink t) s') : ∃ p file line,
    s.threads t = .entered p file line ∧
      ((s.mem (filename p)).isSome ∧
          s' = { s with mem := Function.update s.mem (filename p) none }.goto t (.unlinked p) ∨
        s.mem (filename p) = none ∧
          s' = { s with reports := s.reports ++ [Report.mk file line p] }.goto t
            (.unlinked p)) := by
  unfold Detector.step Detector.exec at h
  simp only at h
  split at h
  · split_ifs at h with hsome
    · exact ⟨_, _, _, ‹_›, .inl ⟨hsome, (Except.ok.inj h).symm⟩⟩
    · exact ⟨_, _, _, ‹_›, .inr ⟨by simpa using hsome, (Except.ok.inj h).symm⟩⟩
  · cases h

theorem step_release (h : s.step (.release t) s') : ∃ p, s.threads t = .unlinked p ∧
    (p = 0 ∧ s' = s.goto t .idle ∨
      p ∈ s.live ∧ s' = { s with live := s.live.erase p }.goto t .idle) := by
  unfold Detector.step Detector.exec at h
  simp only at h
  split at h
  · split_ifs at h with hp hlive
    · exact ⟨_, ‹_›, .inl ⟨hp, (Except.ok.inj h).symm⟩⟩
    · exact ⟨_, ‹_›, .inr ⟨hlive, (Except.ok.inj h).symm⟩⟩
  · cases h

/-- What has been reported stays reported. -/
theorem reports_of_step {op : Op ι} (hop : Opens s op) (h : s.step op s') (hs : s'.reports = []) :
    s.reports = [] := by
  cases op with
  | malloc t size file line p =>
    obtain ⟨-, ⟨-, rfl⟩ | ⟨-, -, rfl⟩⟩ := step_malloc h <;> exact hs
  | openFile t ok =>
    obtain rfl : ok = true := hop
    obtain ⟨p, text, -, rfl⟩ := step_open h
    simpa using hs
  | write t =>
    obtain ⟨p, fd, text, -, rfl⟩ := step_write h
    simpa using hs
  | free t p file line =>
    obtain ⟨-, rfl⟩ := step_free h
    exact hs
  | unlink t =>
    obtain ⟨p, file, line, -, ⟨-, rfl⟩ | ⟨-, rfl⟩⟩ := step_unlink h
    · exact hs
    · simp at hs
  | release t =>
    obtain ⟨p, -, ⟨-, rfl⟩ | ⟨-, rfl⟩⟩ := step_release h <;> exact hs

/-! ### The invariant -/

theorem goto_holds : ((s.goto t phase).threads u).Holds p ↔
    if u = t then phase.Holds p else (s.threads u).Holds p := by
  rw [goto_threads]
  split_ifs <;> rfl

/-- `__malloc` gets a block. -/
theorem Inv.malloc (h : Inv ops s) (ht : s.threads t = .idle) (hlive : p ∉ s.live) (hp : p ≠ 0) :
    Inv (ops ++ [.malloc t size file line p])
      ({ s with live := p :: s.live }.goto t (.allocated p (record size file line))) := by
  -- the records of the blocks in use are those that they were
  have hlast : ∀ q ∈ s.live, lastRecord q (ops ++ [.malloc t size file line p]) =
      lastRecord q ops := fun q hq => lastRecord_append fun _ _ _ _ he => by
    cases he
    exact hlive hq
  obtain ⟨hfiles, hnames, hheld, hone, hnodup, hnull, htexts, hmade, hfds, hcontents⟩ := h
  -- the thread held no block
  have hnone : ∀ q, ¬(s.threads t).Holds q := fun q hq => by rw [ht] at hq; exact hq
  constructor
  · intro q
    simp only [goto_mem, goto_live, goto_holds, hfiles]
    grind [Phase.Holds]
  · exact hnames
  · intro u q hu
    simp only [goto_live, goto_holds] at hu ⊢
    grind [Phase.Holds]
  · intro u u' q hu hu'
    simp only [goto_holds] at hu hu'
    grind [Phase.Holds]
  · exact List.nodup_cons.mpr ⟨hlive, hnodup⟩
  · simp [hp.symm, hnull]
  · intro u q text hu
    rw [goto_threads] at hu
    split_ifs at hu with hut
    · cases hu
      exact lastRecord_malloc.symm
    · rw [hlast q (hheld u q (by rw [hu]; rfl))]
      exact htexts u q text hu
  · exact hmade
  · intro u q fd text hu
    rw [goto_threads] at hu
    split_ifs at hu with hut
    exact hfds u q fd text hu
  · intro q fd c hq
    replace hq : s.mem (filename q) = some (fd, c) := hq
    -- a file is of a block in use, and so not of the new one
    have hqlive : q ∈ s.live := ((hfiles q).mp (by rw [hq]; rfl)).1
    rw [hlast q hqlive]
    obtain ⟨hopen, hc⟩ := hcontents q fd c hq
    simp only [goto_threads]
    grind

/-- `__malloc` makes the file of its block. -/
theorem Inv.openFile (h : Inv ops s) (ht : s.threads t = .allocated p text) :
    Inv (ops ++ [.openFile t true])
      ((s.openFile (filename p)).2.goto t (.opened p (s.openFile (filename p)).1 text)) := by
  have hlast : ∀ q, lastRecord q (ops ++ [.openFile t true]) = lastRecord q ops := fun q =>
    lastRecord_append (by simp)
  obtain ⟨hfiles, hnames, hheld, hone, hnodup, hnull, htexts, hmade, hfds, hcontents⟩ := h
  have hholds : ∀ q, (s.threads t).Holds q ↔ p = q := fun q => by rw [ht]; rfl
  -- the thread holds the block, so it has no file yet
  have hnew : s.mem (filename p) = none := by
    rw [← Option.not_isSome_iff_eq_none, hfiles]
    exact fun hp => hp.2 t ((hholds p).mpr rfl)
  have hmem : ∀ name, Function.update s.mem (filename p) (some (s.files, [])) name =
      if name = filename p then some (s.files, []) else s.mem name := fun name =>
    Function.update_apply _ _ _ _
  have hname : ∀ q, filename q = filename p ↔ q = p := fun q =>
    ⟨filename_inj, congrArg filename⟩
  rw [openFile_new hnew]
  constructor
  · intro q
    simp only [goto_mem, goto_live, goto_holds, hmem, hname]
    grind [Phase.Holds]
  · intro name hsome
    simp only [goto_mem, hmem] at hsome
    grind
  · intro u q hu
    simp only [goto_live, goto_holds] at hu ⊢
    grind [Phase.Holds]
  · intro u u' q hu hu'
    simp only [goto_holds] at hu hu'
    grind [Phase.Holds]
  · exact hnodup
  · exact hnull
  · intro u q text' hu
    simp only [goto_threads] at hu
    rw [hlast]
    grind
  · intro name fd c hsome
    simp only [goto_mem, goto_files, hmem] at hsome ⊢
    grind
  · intro u q fd text' hu
    simp only [goto_threads, goto_files] at hu ⊢
    grind
  · intro q fd c hsome
    simp only [goto_mem, hmem, hname] at hsome
    rw [hlast]
    simp only [goto_threads]
    split_ifs at hsome with hq
    · obtain ⟨rfl, rfl⟩ := Prod.mk.inj (Option.some.inj hsome)
      subst hq
      refine ⟨fun u text' hu => ?_, .inr ⟨rfl, t, text, if_pos rfl⟩⟩
      split_ifs at hu with hut
      · cases hu
        exact htexts t q text ht
      -- no other thread has opened a file with the number of the new one
      · exact absurd (hfds u q _ text' hu) (Nat.lt_irrefl _)
    · obtain ⟨hopen, hc⟩ := hcontents q fd c hsome
      grind

/-- `__malloc` writes the record of its block. -/
theorem Inv.write (h : Inv ops s) (ht : s.threads t = .opened p fd text) :
    Inv (ops ++ [.write t]) ((s.writeFile (filename p) fd (written text)).goto t .idle) := by
  have hlast : ∀ q, lastRecord q (ops ++ [.write t]) = lastRecord q ops := fun q =>
    lastRecord_append (by simp)
  obtain ⟨hfiles, hnames, hheld, hone, hnodup, hnull, htexts, hmade, hfds, hcontents⟩ := h
  have hnone : ∀ q, ¬(s.threads t).Holds q := fun q hq => by rw [ht] at hq; exact hq
  have hname : ∀ q, filename q = filename p ↔ q = p := fun q =>
    ⟨filename_inj, congrArg filename⟩
  -- there are the same files as before
  have hsome : ∀ name, ((s.writeFile (filename p) fd (written text)).mem name).isSome =
      (s.mem name).isSome := by
    intro name
    rw [writeFile_mem]
    split_ifs with hname
    · rw [Option.isSome_map, hname]
    · rfl
  constructor
  · intro q
    simp only [goto_mem, goto_live, goto_holds, hsome, hfiles, writeFile_live, writeFile_threads]
    grind [Phase.Holds]
  · intro name hn
    exact hnames name ((hsome name).symm.trans hn)
  · intro u q hu
    simp only [goto_live, goto_holds, writeFile_live, writeFile_threads] at hu ⊢
    grind [Phase.Holds]
  · intro u u' q hu hu'
    simp only [goto_holds, writeFile_threads] at hu hu'
    grind [Phase.Holds]
  · simpa using hnodup
  · simpa using hnull
  · intro u q text' hu
    simp only [goto_threads, writeFile_threads] at hu
    rw [hlast]
    grind
  · intro name fd' c hn
    simp only [goto_mem, goto_files, writeFile_mem, writeFile_files] at hn ⊢
    split_ifs at hn with hname
    · obtain ⟨⟨fd₀, c₀⟩, hmem, hx⟩ := Option.map_eq_some_iff.mp hn
      have := hmade (filename p) fd₀ c₀ hmem
      grind
    · exact hmade name fd' c hn
  · intro u q fd' text' hu
    simp only [goto_threads, goto_files, writeFile_threads, writeFile_files] at hu ⊢
    grind
  · intro q fd' c hq
    simp only [goto_mem, writeFile_mem, hname] at hq
    rw [hlast]
    simp only [goto_threads, writeFile_threads]
    split_ifs at hq with hqp
    · subst hqp
      obtain ⟨⟨fd₀, c₀⟩, hmem, hx⟩ := Option.map_eq_some_iff.mp hq
      obtain ⟨hopen, hc⟩ := hcontents q fd₀ c₀ hmem
      simp only at hx
      split_ifs at hx with hfd
      · -- the file still has its name: what has been written before is written again
        obtain ⟨rfl, rfl⟩ := Prod.mk.inj hx
        subst hfd
        obtain rfl := hopen t text ht
        refine ⟨fun u text' hu => ?_, .inl ?_⟩
        · split_ifs at hu
          exact hopen u text' hu
        · rcases hc with rfl | ⟨rfl, -⟩ <;> simp
      -- the name has been removed and made again: another file has it
      · obtain ⟨rfl, rfl⟩ := Prod.mk.inj hx
        grind
    · obtain ⟨hopen, hc⟩ := hcontents q fd' c hq
      grind

/-- `__free` is called. -/
theorem Inv.free (h : Inv ops s) (ht : s.threads t = .idle) :
    Inv (ops ++ [.free t p file line]) (s.goto t (.entered p file line)) := by
  have hlast : ∀ q, lastRecord q (ops ++ [.free t p file line]) = lastRecord q ops := fun q =>
    lastRecord_append (by simp)
  obtain ⟨hfiles, hnames, hheld, hone, hnodup, hnull, htexts, hmade, hfds, hcontents⟩ := h
  have hnone : ∀ q, ¬(s.threads t).Holds q := fun q hq => by rw [ht] at hq; exact hq
  refine ⟨?_, hnames, ?_, ?_, hnodup, hnull, ?_, hmade, ?_, ?_⟩
  · intro q
    simp only [goto_mem, goto_live, goto_holds, hfiles]
    grind [Phase.Holds]
  · intro u q hu
    simp only [goto_live, goto_holds] at hu ⊢
    grind [Phase.Holds]
  · intro u u' q hu hu'
    simp only [goto_holds] at hu hu'
    grind [Phase.Holds]
  · intro u q text hu
    simp only [goto_threads] at hu
    rw [hlast]
    grind
  · intro u q fd text hu
    simp only [goto_threads, goto_files] at hu ⊢
    grind
  · intro q fd c hq
    rw [hlast]
    simp only [goto_threads]
    obtain ⟨hopen, hc⟩ := hcontents q fd c hq
    grind

/-- `__free` removes the file of a block. -/
theorem Inv.unlink (h : Inv ops s) (ht : s.threads t = .entered p file line)
    (hp : (s.mem (filename p)).isSome) : Inv (ops ++ [.unlink t])
      ({ s with mem := Function.update s.mem (filename p) none }.goto t (.unlinked p)) := by
  have hlast : ∀ q, lastRecord q (ops ++ [.unlink t]) = lastRecord q ops := fun q =>
    lastRecord_append (by simp)
  obtain ⟨hfiles, hnames, hheld, hone, hnodup, hnull, htexts, hmade, hfds, hcontents⟩ := h
  have hnone : ∀ q, ¬(s.threads t).Holds q := fun q hq => by rw [ht] at hq; exact hq
  -- there was a file, so the block is in use, and now the thread holds it
  obtain ⟨hlive, hfree⟩ := (hfiles p).mp hp
  have hmem : ∀ name, Function.update s.mem (filename p) none name =
      if name = filename p then none else s.mem name := fun name => Function.update_apply _ _ _ _
  have hname : ∀ q, filename q = filename p ↔ q = p := fun q =>
    ⟨filename_inj, congrArg filename⟩
  refine ⟨?_, ?_, ?_, ?_, hnodup, hnull, ?_, ?_, ?_, ?_⟩
  · intro q
    simp only [goto_mem, goto_live, goto_holds, hmem, hname]
    grind [Phase.Holds]
  · intro name hsome
    simp only [goto_mem, hmem] at hsome
    grind
  · intro u q hu
    simp only [goto_live, goto_holds] at hu ⊢
    grind [Phase.Holds]
  · intro u u' q hu hu'
    simp only [goto_holds] at hu hu'
    grind [Phase.Holds]
  · intro u q text hu
    simp only [goto_threads] at hu
    rw [hlast]
    grind
  · intro name fd c hsome
    simp only [goto_mem, goto_files, hmem] at hsome ⊢
    grind
  · intro u q fd text hu
    simp only [goto_threads, goto_files] at hu ⊢
    grind
  · intro q fd c hq
    simp only [goto_mem, hmem, hname] at hq
    rw [hlast]
    simp only [goto_threads]
    split_ifs at hq
    obtain ⟨hopen, hc⟩ := hcontents q fd c hq
    grind

/-- `__free` gives a block back. -/
theorem Inv.release (h : Inv ops s) (ht : s.threads t = .unlinked p) :
    Inv (ops ++ [.release t]) ({ s with live := s.live.erase p }.goto t .idle) := by
  have hlast : ∀ q, lastRecord q (ops ++ [.release t]) = lastRecord q ops := fun q =>
    lastRecord_append (by simp)
  obtain ⟨hfiles, hnames, hheld, hone, hnodup, hnull, htexts, hmade, hfds, hcontents⟩ := h
  have hholds : ∀ q, (s.threads t).Holds q ↔ p = q := fun q => by rw [ht]; rfl
  have herase : ∀ q, q ∈ s.live.erase p ↔ q ≠ p ∧ q ∈ s.live := fun q => hnodup.mem_erase_iff
  refine ⟨?_, hnames, ?_, ?_, hnodup.erase p, ?_, ?_, hmade, ?_, ?_⟩
  · intro q
    simp only [goto_mem, goto_live, goto_holds, hfiles, herase]
    grind [Phase.Holds]
  · intro u q hu
    simp only [goto_live, goto_holds, herase] at hu ⊢
    grind [Phase.Holds]
  · intro u u' q hu hu'
    simp only [goto_holds] at hu hu'
    grind [Phase.Holds]
  · exact fun h0 => hnull ((herase 0).mp h0).2
  · intro u q text hu
    simp only [goto_threads] at hu
    rw [hlast]
    grind
  · intro u q fd text hu
    simp only [goto_threads, goto_files] at hu ⊢
    grind
  · intro q fd c hq
    rw [hlast]
    simp only [goto_threads]
    obtain ⟨hopen, hc⟩ := hcontents q fd c hq
    grind

/-- **A step before the first report** keeps the invariant. -/
theorem Inv.step {op : Op ι} (h : Inv ops s) (hop : Opens s op) (hstep : s.step op s')
    (hs' : s'.reports = []) : Inv (ops ++ [op]) s' := by
  cases op with
  | malloc t size file line p =>
    obtain ⟨ht, ⟨rfl, rfl⟩ | ⟨hp, hlive, rfl⟩⟩ := step_malloc hstep
    · -- `malloc` has failed, and nothing is done
      obtain ⟨hfiles, hnames, hheld, hone, hnodup, hnull, htexts, hmade, hfds, hcontents⟩ := h
      have hlast : ∀ q ∈ s'.live, lastRecord q (ops ++ [.malloc t size file line 0]) =
          lastRecord q ops := fun q hq => lastRecord_append fun _ _ _ _ he => by
        cases he
        exact hnull hq
      refine ⟨hfiles, hnames, hheld, hone, hnodup, hnull, fun u q text hu => ?_, hmade, hfds,
        fun q fd c hq => ?_⟩
      · rw [hlast q (hheld u q (by rw [hu]; rfl))]
        exact htexts u q text hu
      · rw [hlast q ((hfiles q).mp (by rw [hq]; rfl)).1]
        exact hcontents q fd c hq
    · exact h.malloc ht hlive hp
  | openFile t ok =>
    obtain rfl : ok = true := hop
    obtain ⟨p, text, ht, rfl⟩ := step_open hstep
    exact h.openFile ht
  | write t =>
    obtain ⟨p, fd, text, ht, rfl⟩ := step_write hstep
    exact h.write ht
  | free t p file line =>
    obtain ⟨ht, rfl⟩ := step_free hstep
    exact h.free ht
  | unlink t =>
    obtain ⟨p, file, line, ht, ⟨hp, rfl⟩ | ⟨-, rfl⟩⟩ := step_unlink hstep
    · exact h.unlink ht hp
    -- a report contradicts that there has been none
    · simp at hs'
  | release t =>
    obtain ⟨p, ht, ⟨rfl, -⟩ | ⟨-, rfl⟩⟩ := step_release hstep
    · exact absurd (h.held t 0 (by rw [ht]; rfl)) h.null
    · exact h.release ht

/-- Runs without a report. -/
theorem inv_of_run (hrun : Run (guard Opens Detector.step) (Detector.start ι) ops s)
    (hs : s.reports = []) : Inv ops s := by
  refine @Run.invariant_labels _ _ _ _ _ _ (fun ops s => s.reports = [] → Inv ops s) hrun
    (fun _ => inv_start) (fun ops s op s' ih ⟨hop, hstep⟩ hs' => ?_) hs
  exact (ih (reports_of_step hop hstep hs')).step hop hstep hs'

/-- **The files are the leaks**: when all threads are back in the program and nothing has been
reported, there is a file for each block in use, with the record of the call that has allocated
it, and no other. -/
theorem run_leaks (hrun : Run (guard Opens Detector.step) (Detector.start ι) ops s)
    (hs : s.reports = []) (hidle : ∀ t, s.threads t = .idle) :
    (∀ p, (s.mem (filename p)).map Prod.snd =
        if p ∈ s.live then some (written (lastRecord p ops)) else none) ∧
      ∀ name, (s.mem name).isSome → ∃ p ∈ s.live, name = filename p := by
  have h := inv_of_run hrun hs
  have hfree : ∀ p t, ¬(s.threads t).Holds p := fun p t hp => by rw [hidle t] at hp; exact hp
  refine ⟨fun p => ?_, fun name hn => ?_⟩
  · cases hm : s.mem (filename p) with
    | none =>
      have hp : p ∉ s.live := fun hp => by
        have hsome := (h.files p).mpr ⟨hp, hfree p⟩
        rw [hm] at hsome
        exact absurd hsome (by simp)
      rw [if_neg hp, Option.map_none]
    | some x =>
      have hp := ((h.files p).mp (by rw [hm]; rfl)).1
      rw [if_pos hp, Option.map_some]
      obtain hc | ⟨-, t, text, ht⟩ := (h.contents p x.1 x.2 hm).2
      · rw [hc]
      · rw [hidle t] at ht
        cases ht
  · obtain ⟨p, rfl⟩ := h.names name hn
    exact ⟨p, ((h.files p).mp hn).1, rfl⟩

end

/-- The demo: two blocks, of which the first is freed. -/
def demo : List (Op Unit) :=
  [.malloc () 10 ['d'] 10 1, .openFile () true, .write (), .malloc () 20 ['d'] 11 2,
    .openFile () true, .write (), .free () 1 ['d'] 13, .unlink (), .release ()]

theorem run_leaks_demo : ∃ s, Run (guard Opens Detector.step) (Detector.start Unit) demo s ∧
    (s.mem (filename 1)).map Prod.snd = none ∧
      (s.mem (filename 2)).map Prod.snd = some (record 20 ['d'] 11) := by
  have hex : ∃ s, Run (guard Opens Detector.step) (Detector.start Unit) demo s ∧
      (s.reports, s.threads (), s.live) = ([], .idle, [2]) := exists_run_guard_ok rfl
  obtain ⟨s, hrun, hs⟩ := hex
  simp only [Prod.mk.injEq] at hs
  obtain ⟨hreports, hidle, hlive⟩ := hs
  have hfiles := (run_leaks hrun hreports fun _ => hidle).1
  refine ⟨s, hrun, ?_, ?_⟩
  · rw [hfiles 1, if_neg (by rw [hlive]; decide)]
  · rw [hfiles 2, if_pos (by rw [hlive]; decide), written_eq (by decide)]
    rfl

end Memleak

end BackendStudy
