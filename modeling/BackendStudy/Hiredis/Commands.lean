import BackendStudy.Hiredis.Sessions

/-!
# Commands are arrays of strings

The text of a command is that of the array of its arguments
(`BackendStudy.Hiredis.wire_protocol`). So the reader reads back the arguments of what
`redisvFormatCommand` formats, as long as it has fewer than `2 ^ 31` bytes, in whatever pieces it
arrives (`BackendStudy.Hiredis.read_formatted`), and one command after another can be told apart
(`BackendStudy.Hiredis.protocol_append_inj`).
-/

namespace BackendStudy

namespace Hiredis

open Slots Redis Decimal Incremental Runs

/-- The arguments of a command as a reply. -/
def argvReply (argv : List Str) : Reply :=
  ⟨.array, 0, [], argv.map fun arg => ⟨.string, 0, arg, []⟩⟩

section

variable {argv argv' : List Str} {arg w w' : Str} {d : ℕ}

/-- The text of an argument. -/
theorem wire_arg (harg : arg.length < 2 ^ 63) :
    Wire d ⟨.string, 0, arg, []⟩
      ('$' :: Nat.toDigits 10 arg.length ++ ['\r', '\n'] ++ arg ++ ['\r', '\n']) := by
  have hw := Wire.string (d := d) harg (show ['\r', '\n'].length = 2 from rfl)
  simpa [header, crlf, decimal_natCast] using hw

/-- The texts of the arguments. -/
theorem wires_args (hargs : ∀ arg ∈ argv, arg.length < 2 ^ 63) :
    Wires d (argv.map fun arg => ⟨.string, 0, arg, []⟩) (argv.flatMap fun arg =>
      '$' :: Nat.toDigits 10 arg.length ++ ['\r', '\n'] ++ arg ++ ['\r', '\n']) := by
  induction argv with
  | nil => exact .nil
  | cons arg argv ih =>
    rw [List.map_cons, List.flatMap_cons]
    exact .cons (wire_arg (hargs arg List.mem_cons_self))
      (ih fun a ha => hargs a (List.mem_cons_of_mem _ ha))

/-- The number of arguments and their lengths are less than the length of the command. -/
theorem length_lt_protocol (argv : List Str) : argv.length < (protocol argv).length ∧
    ∀ arg ∈ argv, arg.length < (protocol argv).length := by
  have hsum : ∀ l : List Str, l.length ≤ (l.flatMap fun arg =>
      '$' :: Nat.toDigits 10 arg.length ++ ['\r', '\n'] ++ arg ++ ['\r', '\n']).length ∧
      ∀ arg ∈ l, arg.length ≤ (l.flatMap fun arg =>
        '$' :: Nat.toDigits 10 arg.length ++ ['\r', '\n'] ++ arg ++ ['\r', '\n']).length := by
    intro l
    induction l with
    | nil => exact ⟨le_rfl, fun arg h => absurd h List.not_mem_nil⟩
    | cons a l ih =>
      simp only [List.flatMap_cons, List.length_append, List.length_cons, List.length_nil]
      refine ⟨by omega, fun arg h => ?_⟩
      rcases List.mem_cons.mp h with rfl | h
      · omega
      · have hle := ih.2 arg h
        omega
  obtain ⟨hlen, hargs⟩ := hsum argv
  simp only [protocol, List.length_append, List.length_cons, List.length_nil]
  refine ⟨by omega, fun arg h => ?_⟩
  have hle := hargs arg h
  omega

/-- **The text of a command** is that of the array of its arguments. -/
theorem wire_protocol (hlen : (protocol argv).length < 2 ^ 31) :
    Wire 0 (argvReply argv) (protocol argv) := by
  obtain ⟨hcount, hargs⟩ := length_lt_protocol argv
  have harray := Wire.array (d := 0) (by decide)
    (show (argv.map fun arg => (⟨.string, 0, arg, []⟩ : Reply)).length < 2 ^ 31 by
      rw [List.length_map]; omega)
    (wires_args fun arg harg => (hargs arg harg).trans (by omega))
  rw [List.length_map] at harray
  simpa [protocol, argvReply, header, crlf, decimal_natCast] using harray

/-- The texts of commands, one after another. -/
theorem wires_protocol {argvs : List (List Str)}
    (hlen : ∀ argv ∈ argvs, (protocol argv).length < 2 ^ 31) :
    Wires 0 (argvs.map argvReply) (argvs.flatMap protocol) := by
  induction argvs with
  | nil => exact .nil
  | cons argv argvs ih =>
    rw [List.map_cons, List.flatMap_cons]
    exact .cons (wire_protocol (hlen argv List.mem_cons_self))
      (ih fun a ha => hlen a (List.mem_cons_of_mem _ ha))

theorem header_append_inj {z z' : ℤ} (heq : header z ++ w = header z' ++ w') :
    z = z' ∧ w = w' := by
  have hlen := newline_header z w
  rw [heq, newline_header] at hlen
  have hz : decimal z = decimal z' := by
    rw [← take_header z w, heq, ← Option.some.inj hlen, take_header]
  obtain rfl := decimal_inj.mp hz
  exact ⟨rfl, List.append_cancel_left heq⟩

/-- The text of an argument, with its number in front of it. -/
def argText (arg : Str) : Str := '$' :: (header arg.length ++ (arg ++ crlf))

theorem protocol_eq (argv : List Str) :
    protocol argv = '*' :: (header argv.length ++ argv.flatMap argText) := by
  have hargs : (fun arg : Str => '$' :: Nat.toDigits 10 arg.length ++ ['\r', '\n'] ++ arg ++
      ['\r', '\n']) = argText := by
    funext arg
    simp [argText, header, crlf, decimal_natCast]
  rw [protocol, hargs]
  simp [header, crlf, decimal_natCast]

theorem argTexts_append_inj (hlen : argv.length = argv'.length)
    (heq : argv.flatMap argText ++ w = argv'.flatMap argText ++ w') : argv = argv' ∧ w = w' := by
  induction argv generalizing argv' with
  | nil =>
    obtain rfl := List.length_eq_zero_iff.mp hlen.symm
    exact ⟨rfl, heq⟩
  | cons arg argv ih =>
    obtain ⟨arg', argv', rfl⟩ := List.exists_cons_of_length_eq_add_one hlen.symm
    simp only [List.flatMap_cons, argText, List.cons_append, List.append_assoc, List.cons.injEq,
      true_and] at heq
    obtain ⟨harg, hrest⟩ := header_append_inj heq
    obtain ⟨rfl, htail⟩ := List.append_inj hrest (Int.natCast_inj.mp harg)
    obtain ⟨rfl, rfl⟩ := ih (Nat.succ.inj hlen) (List.append_cancel_left htail)
    exact ⟨rfl, rfl⟩

/-- **Commands one after another** can be told apart. -/
theorem protocol_append_inj (heq : protocol argv ++ w = protocol argv' ++ w') :
    argv = argv' ∧ w = w' := by
  simp only [protocol_eq, List.cons_append, List.append_assoc, List.cons.injEq, true_and] at heq
  obtain ⟨hlen, hrest⟩ := header_append_inj heq
  exact argTexts_append_inj (Int.natCast_inj.mp hlen) hrest

/-- **Commands that are fed are read back**, in whatever pieces. -/
theorem read_commands {argvs : List (List Str)} {cs : List Call} {s : Session}
    (hlen : ∀ argv ∈ argvs, (protocol argv).length < 2 ^ 31)
    (h : Run Session.steps Session.start cs s) (hfed : s.fed = argvs.flatMap protocol)
    (hlast : s.last = some (.ok, none)) : s.got = (argvs.map argvReply).map some := by
  have hw := wires_protocol hlen
  obtain ⟨outs, rs, hs⟩ := Session.settled_of_run h
  have hle := (hs.waits hlast).begins hw (hfed ▸ List.prefix_refl _)
  have hge := (hs.tracks.of_wires (w := []) (by rw [List.append_nil, hfed]; exact hw)).2
  rw [hs.got, hge.eq_of_length_le hle.length_le]

/-- **What `redisvFormatCommand` formats is read back**: the arguments of each command, in the
order of the commands, in whatever pieces their texts arrive. -/
theorem read_formatted {ν : Type} {vprintf : Str → ν → Str}
    {formats : List (Str × List (VaArg ν))} {cmds : List Str} {cs : List Call} {s : Session}
    (hcmds : List.Forall₂ (fun f cmd => redisvFormatCommand vprintf f.1 f.2 = .ok (some cmd))
      formats cmds)
    (hlen : ∀ cmd ∈ cmds, cmd.length < 2 ^ 31) (h : Run Session.steps Session.start cs s)
    (hfed : s.fed = cmds.flatten) (hlast : s.last = some (.ok, none)) :
    ∃ argvs, List.Forall₂ (fun f argv => formatArgv vprintf f.1 f.2 = .ok (some argv))
      formats argvs ∧ s.got = argvs.map fun argv => some (argvReply argv) := by
  -- each text is that of a command
  have hargvs : ∃ argvs, List.Forall₂ (fun f argv => formatArgv vprintf f.1 f.2 =
      .ok (some argv)) formats argvs ∧ cmds = argvs.map protocol := by
    clear hlen h hfed hlast
    induction hcmds with
    | nil => exact ⟨[], .nil, rfl⟩
    | cons hcmd _ ih =>
      obtain ⟨argvs, hall, rfl⟩ := ih
      obtain ⟨argv, hargv, hcmd⟩ := bind_eq_ok hcmd
      obtain ⟨argv, rfl, rfl⟩ := Option.map_eq_some_iff.mp (Except.ok.inj hcmd)
      exact ⟨argv :: argvs, .cons hargv hall, rfl⟩
  obtain ⟨argvs, hall, rfl⟩ := hargvs
  refine ⟨argvs, hall, ?_⟩
  rw [read_commands (fun argv hin => hlen _ (List.mem_map_of_mem hin)) h
    (by rw [hfed, List.flatMap]) hlast, List.map_map]
  rfl

/-- `"GET %s"` of a key with a space, in two pieces. -/
theorem read_formatted_get : ∃ s argvs, Run Session.steps Session.start
    [.feed "*2\r\n$3\r\nGET\r\n$3\r\na".toList, .getReply, .feed " b\r\n".toList, .getReply,
      .getReply] s ∧
    List.Forall₂ (fun f argv => formatArgv (fun s (_ : Unit) => s) f.1 f.2 = .ok (some argv))
      [("GET %s".toList, [.text "a b".toList])] argvs ∧
    s.got = argvs.map fun argv => some (argvReply argv) := by
  obtain ⟨s, hrun, hs⟩ := Session.exists_run
    [.feed "*2\r\n$3\r\nGET\r\n$3\r\na".toList, .getReply, .feed " b\r\n".toList, .getReply,
      .getReply] (fun s => (s.fed, s.last))
    ("*2\r\n$3\r\nGET\r\n$3\r\na b\r\n".toList, some (.ok, none)) rfl
  obtain ⟨hfed, hlast⟩ := Prod.mk.inj hs
  have hcmds : List.Forall₂ (fun f cmd => redisvFormatCommand (fun s (_ : Unit) => s) f.1 f.2 =
      .ok (some cmd)) [("GET %s".toList, [.text "a b".toList])]
      ["*2\r\n$3\r\nGET\r\n$3\r\na b\r\n".toList] := .cons rfl .nil
  obtain ⟨argvs, hall, hgot⟩ := read_formatted hcmds (by decide) hrun hfed hlast
  exact ⟨s, argvs, hrun, hall, hgot⟩

end

end Hiredis

end BackendStudy
