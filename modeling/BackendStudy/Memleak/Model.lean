import BackendStudy.Lib.Decimal
import BackendStudy.Lib.Runs
import Mathlib.Logic.Function.Basic

/-!
# The leak detector

`memleak_detector.c` wraps `malloc` and `free`: for each block there is a file in the directory
`mem`, named after the address of the block and with the place of the call in it. `__malloc` makes
the file when it has the block, `__free` removes it before it gives the block back, and reports a
block without a file as freed twice. What is left in the directory at the end has leaked.

Any number of threads call the wrappers, and between any two system calls of one the others may
take steps (`BackendStudy.Memleak.Detector.exec`). The allocator gives out addresses that are not
in use, also such as have been used before. A file is known by its number, which it keeps when its
name is removed while it is open. To write more than the buffer has, and to give back a block that
is not in use, are faults.
-/

namespace BackendStudy

namespace Memleak

open Decimal

/-! ### Names and records -/

/-- `%p`. -/
def pointer (p : UInt64) : List Char :=
  if p = 0 then "(nil)".toList else '0' :: 'x' :: Nat.toDigits 16 p.toNat

/-- The name of the file of a block. -/
def filename (p : UInt64) : List Char :=
  ("mem/".toList ++ pointer p ++ ".mem".toList).take 62

/-- What is to be written to the file of a block. -/
def record (size : ℕ) (file : List Char) (line : ℤ) : List Char :=
  '[' :: file ++ ", line ".toList ++ decimal line ++ "] size=".toList ++ decimal size ++ ['\n']

/-- `buf`, a string of at most 254 characters in it. -/
def buffer (text : List Char) : List Char := (text.take 254 ++ List.replicate 256 '\x00').take 256

/-- What is written to the file of a block. -/
def written (text : List Char) : List Char := (buffer text).take text.length

/-! ### The state -/

/-- Where a thread is. -/
inductive Phase
  /-- In the program. -/
  | idle
  /-- `__malloc` has a block, and is to open its file. -/
  | allocated (p : UInt64) (text : List Char)
  /-- `__malloc` is to write to the file. -/
  | opened (p : UInt64) (fd : ℕ) (text : List Char)
  /-- `__free` is to remove the file. -/
  | entered (p : UInt64) (file : List Char) (line : ℤ)
  /-- `__free` is to give the block back. -/
  | unlinked (p : UInt64)

/-- A message of `__free`. -/
structure Report where
  /-- The file of the call. -/
  file : List Char
  /-- Its line. -/
  line : ℤ
  /-- The pointer. -/
  ptr : UInt64

/-- A program with the detector. -/
structure Detector (ι : Type) where
  /-- The blocks in use. -/
  live : List UInt64
  /-- The directory: the numbers and the contents of the files by their names. -/
  mem : List Char → Option (ℕ × List Char)
  /-- How many files there have been. -/
  files : ℕ
  /-- The threads. -/
  threads : ι → Phase
  /-- What has been reported. -/
  reports : List Report

/-- Nothing has been allocated, and the directory is empty. -/
def Detector.start (ι : Type) : Detector ι := ⟨[], fun _ => none, 0, fun _ => .idle, []⟩

/-! ### The steps -/

/-- A step of a thread. -/
inductive Op (ι : Type)
  /-- `__malloc` is called, and `malloc` returns a pointer. -/
  | malloc (t : ι) (size : ℕ) (file : List Char) (line : ℤ) (p : UInt64)
  /-- `open`, and whether it succeeds. -/
  | openFile (t : ι) (ok : Bool)
  /-- `write` and `close`. -/
  | write (t : ι)
  /-- `__free` is called. -/
  | free (t : ι) (p : UInt64) (file : List Char) (line : ℤ)
  /-- `unlink`, with the report if it fails. -/
  | unlink (t : ι)
  /-- `free`. -/
  | release (t : ι)

/-- Why there is no step. -/
inductive Stop
  /-- The thread is not there. -/
  | notThere
  /-- `write` reads behind the end of the buffer. -/
  | overread
  /-- A block is freed that is not in use. -/
  | invalidFree
  deriving DecidableEq

variable {ι : Type}

/-- The file of a name, made if there is none. -/
def Detector.openFile (s : Detector ι) (name : List Char) : ℕ × Detector ι :=
  match s.mem name with
  | some (fd, _) => (fd, s)
  | none => (s.files,
      { s with mem := Function.update s.mem name (some (s.files, [])), files := s.files + 1 })

/-- To write from the start of an open file, if it still has its name. -/
def Detector.writeFile (s : Detector ι) (name : List Char) (fd : ℕ) (bytes : List Char) :
    Detector ι :=
  match s.mem name with
  | some (fd', old) =>
    if fd' = fd then
      { s with mem := Function.update s.mem name (some (fd, bytes ++ old.drop bytes.length)) }
    else s
  | none => s

variable [DecidableEq ι]

/-- A thread goes on. -/
def Detector.goto (s : Detector ι) (t : ι) (phase : Phase) : Detector ι :=
  { s with threads := Function.update s.threads t phase }

/-- **A step.** -/
def Detector.exec (s : Detector ι) : Op ι → Except Stop (Detector ι)
  | .malloc t size file line p =>
    match s.threads t with
    | .idle =>
      if p = 0 then .ok s
      else if p ∈ s.live then .error .notThere
      else .ok ({ s with live := p :: s.live }.goto t (.allocated p (record size file line)))
    | _ => .error .notThere
  | .openFile t ok =>
    match s.threads t with
    | .allocated p text =>
      if ok then
        let (fd, s) := s.openFile (filename p)
        .ok (s.goto t (.opened p fd text))
      else .ok (s.goto t .idle)
    | _ => .error .notThere
  | .write t =>
    match s.threads t with
    | .opened p fd text =>
      if text.length > 256 then .error .overread
      else .ok ((s.writeFile (filename p) fd (written text)).goto t .idle)
    | _ => .error .notThere
  | .free t p file line =>
    match s.threads t with
    | .idle => .ok (s.goto t (.entered p file line))
    | _ => .error .notThere
  | .unlink t =>
    match s.threads t with
    | .entered p file line =>
      if (s.mem (filename p)).isSome then
        .ok ({ s with mem := Function.update s.mem (filename p) none }.goto t (.unlinked p))
      else .ok ({ s with reports := s.reports ++ [Report.mk file line p] }.goto t (.unlinked p))
    | _ => .error .notThere
  | .release t =>
    match s.threads t with
    | .unlinked p =>
      if p = 0 then .ok (s.goto t .idle)
      else if p ∈ s.live then .ok ({ s with live := s.live.erase p }.goto t .idle)
      else .error .invalidFree
    | _ => .error .notThere

/-- A step that leads to a state. -/
def Detector.step (s : Detector ι) (op : Op ι) (s' : Detector ι) : Prop := s.exec op = .ok s'

/-- A step in which `open` does not fail. -/
def Opens {ι : Type} (_ : Detector ι) : Op ι → Prop
  | .openFile _ ok => ok = true
  | _ => True

instance {ι : Type} (s : Detector ι) : (op : Op ι) → Decidable (Opens s op)
  | .openFile _ ok => inferInstanceAs (Decidable (ok = true))
  | .malloc .. | .write .. | .free .. | .unlink .. | .release .. => inferInstanceAs (Decidable True)

/-! ### The names are different -/

theorem digitChar_inj : ∀ m < 16, ∀ n < 16, Nat.digitChar m = Nat.digitChar n → m = n := by
  decide

/-- Different numbers have different numerals. -/
theorem toDigits_sixteen_inj {m n : ℕ} (h : Nat.toDigits 16 m = Nat.toDigits 16 n) : m = n := by
  induction m using Nat.strongRecOn generalizing n with
  | ind m ih =>
    rw [Nat.toDigits_eq_if (by decide), Nat.toDigits_eq_if (n := n) (by decide)] at h
    split_ifs at h with hm hn hn
    · exact digitChar_inj m hm n hn (List.singleton_injective h)
    · exact absurd (congrArg List.length h) (by
        have := List.length_pos_iff.mpr (Nat.toDigits_ne_nil (n := n / 16) (b := 16))
        simp only [List.length_singleton, List.length_append]
        omega)
    · exact absurd (congrArg List.length h) (by
        have := List.length_pos_iff.mpr (Nat.toDigits_ne_nil (n := m / 16) (b := 16))
        simp only [List.length_singleton, List.length_append]
        omega)
    · obtain ⟨hdiv, hmod⟩ := List.append_inj' h rfl
      have hdiv := ih (m / 16) (by omega) hdiv
      have hmod := digitChar_inj (m % 16) (by omega) (n % 16) (by omega)
        (List.singleton_injective hmod)
      omega

/-- A name is not cut off. -/
theorem filename_eq (p : UInt64) :
    filename p = "mem/".toList ++ pointer p ++ ".mem".toList := by
  refine List.take_of_length_le ?_
  have hlen : (pointer p).length ≤ 18 := by
    rw [pointer]
    split_ifs with hp
    · decide
    · have hdigits : (Nat.toDigits 16 p.toNat).length ≤ 16 :=
        (Nat.length_toDigits_le_iff (by decide) (by decide)).mpr p.toNat_lt
      simp only [List.length_cons]
      omega
  simp only [List.length_append]
  have hmem : "mem/".toList.length = 4 := by decide
  have hdot : ".mem".toList.length = 4 := by decide
  omega

/-- **Different blocks have different files.** -/
theorem filename_inj {p q : UInt64} (h : filename p = filename q) : p = q := by
  rw [filename_eq, filename_eq, List.append_cancel_right_eq, List.append_cancel_left_eq] at h
  unfold pointer at h
  split_ifs at h with hp hq hq
  · rw [hp, hq]
  · exact absurd (congrArg List.head? h) (by rw [List.head?_cons]; decide)
  · exact absurd (congrArg List.head? h) (by rw [List.head?_cons]; decide)
  · simp only [List.cons.injEq, true_and] at h
    exact UInt64.toNat_inj.mp (toDigits_sixteen_inj h)

/-- A record that fits into the buffer is written as it is. -/
theorem written_eq {text : List Char} (h : text.length ≤ 254) : written text = text := by
  rw [written, buffer, List.take_take, List.take_of_length_le h, Nat.min_eq_left (by omega),
    List.take_left]

end Memleak

end BackendStudy
