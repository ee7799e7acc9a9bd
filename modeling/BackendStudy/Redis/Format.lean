import BackendStudy.Redis.Model
import Mathlib.Data.List.TakeWhile

/-!
# Which arguments arrive

A command string without variable arguments can only lose: spaces end arguments and are never
part of one, an argument begins with a character, and a `%` directive that prints nothing but
itself needs two characters for one (`BackendStudy.Redis.directive_nil`). So what arrives is
counted (`BackendStudy.Redis.Scan.weight`): no run of the loop makes the arguments longer than
the characters that are no spaces, and with a directive it makes them shorter
(`BackendStudy.Redis.formatLoop_bound`). Arguments arrive as they are if and only if they are
plain (`BackendStudy.Redis.Plain`).
-/

namespace BackendStudy

namespace Redis

open Slots

/-- **Plain arguments**: none is empty, none contains a space, and there is no `%`, except as the
very last character. -/
structure Plain (args : List Str) : Prop where
  ne_nil : ∀ a ∈ args, a ≠ []
  space : ∀ a ∈ args, ' ' ∉ a
  percent : '%' ∉ args.flatten.dropLast

/-- No string contains the terminator. -/
def NulFree (args : List Str) : Prop := ∀ a ∈ args, '\x00' ∉ a

/-- How many characters the arguments have so far. -/
def Scan.weight (s : Scan) : ℕ := s.curargv.flatten.length + s.curarg.length

/-- How many characters of a format are no spaces. -/
def ink (c : Str) : ℕ := c.countP (· ≠ ' ')

/-- **The invariant of the loop**: complete arguments are not empty, the current one is not when
it has been begun, and there are no spaces. -/
structure Scan.Clean (s : Scan) : Prop where
  done : ∀ a ∈ s.curargv, a ≠ [] ∧ ' ' ∉ a
  begun : s.touched = true → s.curarg ≠ []
  space : ' ' ∉ s.curarg

section

variable {ν : Type} {vprintf : Str → ν → Str} {s s' : Scan} {ap ap' : List (VaArg ν)} {c x a : Str}
  {k : ℕ} {args out : List Str} {name : Str}

/-! ### Literal text -/

/-- Text without spaces is appended, as long as each `%` is the last character of all. -/
theorem formatLoop_text (ha : a ≠ []) (hsp : ' ' ∉ a) (hpc : '%' ∉ (a ++ c).dropLast) :
    formatLoop vprintf 0 (a ++ c) s ap = formatLoop vprintf 0 c (s.cat a) ap := by
  induction a generalizing s with
  | nil => exact absurd rfl ha
  | cons x a ih =>
    have hx : x ≠ ' ' := fun he => hsp (he ▸ List.mem_cons_self)
    have hlit : x ≠ '%' ∨ a ++ c = [] := by
      by_contra! h
      refine hpc ?_
      rw [List.cons_append, List.dropLast_cons_of_ne_nil h.2, h.1]
      exact List.mem_cons_self
    rw [List.cons_append, formatLoop, if_pos hlit, if_neg hx]
    by_cases hnil : a = []
    · rw [hnil]
      rfl
    · rw [ih hnil (fun hm => hsp (List.mem_cons_of_mem _ hm)) fun hm => hpc ?_]
      · simp [Scan.cat]
      · rw [List.cons_append, List.dropLast_cons_of_ne_nil (by simp [hnil])]
        exact List.mem_cons_of_mem _ hm

/-- The arguments behind the name of a command, each behind a space. -/
def spaced (args : List Str) : Str := args.flatMap fun a => ' ' :: a

theorem buildCommand_eq (name : Str) (args : List Str) :
    buildCommand name args = name ++ spaced args := by
  induction args generalizing name with
  | nil => simp [buildCommand, spaced]
  | cons a args ih =>
    have hih := ih (name ++ [' '] ++ a)
    rw [buildCommand] at hih ⊢
    rw [List.foldl_cons, hih]
    simp [spaced]

/-- Plain arguments are appended one by one. -/
theorem formatLoop_spaced (hne : ∀ a ∈ args, a ≠ []) (hsp : ∀ a ∈ args, ' ' ∉ a)
    (hpc : '%' ∉ (spaced args).dropLast) (hs : s.touched = true) :
    formatLoop vprintf 0 (spaced args) s ap = .ok (some (s.curargv ++ s.curarg :: args)) := by
  induction args generalizing s with
  | nil => simp [spaced, formatLoop, Scan.argv, hs]
  | cons a args ih =>
    have ha : a ≠ [] := hne a List.mem_cons_self
    have hcons : spaced (a :: args) = ' ' :: (a ++ spaced args) := rfl
    have hpc' : '%' ∉ (a ++ spaced args).dropLast := by
      rw [hcons, List.dropLast_cons_of_ne_nil (by simp [ha])] at hpc
      exact fun hm => hpc (List.mem_cons_of_mem _ hm)
    have hpc'' : '%' ∉ (spaced args).dropLast := by
      intro hm
      refine hpc' ?_
      have hnil : spaced args ≠ [] := by
        rintro he
        simp [he] at hm
      rw [List.dropLast_append_of_ne_nil hnil]
      exact List.mem_append_right _ hm
    rw [hcons, formatLoop, if_pos (Or.inl (by decide)), if_pos rfl,
      formatLoop_text ha (hsp a List.mem_cons_self) hpc',
      ih (fun b hb => hne b (List.mem_cons_of_mem _ hb))
        (fun b hb => hsp b (List.mem_cons_of_mem _ hb)) hpc'' rfl]
    simp [Scan.space, Scan.cat, hs]

/-! ### What a run can make -/

/-- Without variable arguments, the only directive is `%%`. -/
theorem directive_nil (h : directive vprintf c s [] = .ok (some (s', ap', k))) :
    ∃ c', c = '%' :: c' ∧ s' = s.cat ['%'] ∧ ap' = [] ∧ k = 1 := by
  unfold directive at h
  split at h
  · exact absurd h (by simp [vaText])
  · exact absurd h (by simp [vaText])
  · obtain ⟨rfl, rfl, rfl⟩ : s.cat ['%'] = s' ∧ [] = ap' ∧ 1 = k := by simpa using h
    exact ⟨_, rfl, rfl, rfl, rfl⟩
  · split at h
    · exact absurd h (by simp)
    · exact absurd h (by simp [vaNumber])

theorem Scan.Clean.space_clean (hs : s.Clean) : s.space.Clean := by
  unfold Scan.space
  split_ifs with ht
  · refine ⟨fun a ha => ?_, fun h => absurd h (by simp), by simp⟩
    rcases List.mem_append.mp ha with ha | ha
    · exact hs.done a ha
    · obtain rfl := List.mem_singleton.mp ha
      exact ⟨hs.begun ht, hs.space⟩
  · exact hs

theorem Scan.weight_space : s.space.weight ≤ s.weight := by
  unfold Scan.space
  split_ifs with ht
  · simp [Scan.weight]
  · exact Nat.le_refl _

theorem Scan.Clean.cat_clean (hs : s.Clean) {x : Char} (hx : x ≠ ' ') : (s.cat [x]).Clean := by
  refine ⟨hs.done, fun _ => by simp [Scan.cat], fun hm => ?_⟩
  rcases List.mem_append.mp hm with hm | hm
  · exact hs.space hm
  · exact hx (List.mem_singleton.mp hm).symm

theorem Scan.weight_cat (x : Str) : (s.cat x).weight = s.weight + x.length := by
  simp [Scan.weight, Scan.cat, Nat.add_assoc]

theorem Scan.Clean.argv_clean (hs : s.Clean) : ∀ a ∈ s.argv, a ≠ [] ∧ ' ' ∉ a := by
  intro a ha
  unfold Scan.argv at ha
  split_ifs at ha with ht
  · rcases List.mem_append.mp ha with ha | ha
    · exact hs.done a ha
    · obtain rfl := List.mem_singleton.mp ha
      exact ⟨hs.begun ht, hs.space⟩
  · exact hs.done a ha

theorem Scan.argv_weight : s.argv.flatten.length ≤ s.weight := by
  unfold Scan.argv
  split_ifs with ht
  · simp [Scan.weight]
  · simp [Scan.weight]

/-- **What arrives without variable arguments**: arguments that are not empty and have no
spaces, not longer than the format, and shorter where the format has a directive. -/
theorem formatLoop_bound (hs : s.Clean) (h : formatLoop vprintf k c s [] = .ok (some out)) :
    (∀ a ∈ out, a ≠ [] ∧ ' ' ∉ a) ∧ out.flatten.length ≤ s.weight + ink (c.drop k) ∧
      (s.weight + ink (c.drop k) ≤ out.flatten.length → '%' ∉ (c.drop k).dropLast) := by
  -- along the format, where a directive may have eaten the characters that come next
  induction c generalizing k s with
  | nil =>
    cases k with
    | zero =>
      obtain rfl : s.argv = out := by simpa [formatLoop] using h
      exact ⟨hs.argv_clean, by simpa [ink] using Scan.argv_weight, by simp⟩
    | succ k => exact absurd h (by simp [formatLoop])
  | cons x c ih =>
    cases k with
    | succ k => exact ih hs h
    | zero =>
      rw [List.drop_zero]
      have hlast : ∀ {P : Prop}, (x = '%' → c = []) → (P → '%' ∉ c.dropLast) →
          P → '%' ∉ (x :: c).dropLast := by
        intro P hx hc hp hm
        cases c with
        | nil => simp at hm
        | cons y c =>
          rw [List.dropLast_cons_of_ne_nil (by simp)] at hm
          rcases List.mem_cons.mp hm with he | hm
          · exact absurd (hx he.symm) (by simp)
          · exact hc hp hm
      rw [formatLoop] at h
      split_ifs at h with hlit hspace
      · -- a space
        obtain ⟨hout, hle, hpc⟩ := ih hs.space_clean h
        have hw := Scan.weight_space (s := s)
        have hink : ink (x :: c) = ink c := by simp [ink, hspace]
        rw [List.drop_zero] at hle hpc
        refine ⟨hout, by omega, hlast (fun hx => hlit.resolve_left (not_not.mpr hx)) fun hp =>
          hpc (by omega)⟩
      · -- another character
        obtain ⟨hout, hle, hpc⟩ := ih (hs.cat_clean hspace) h
        have hink : ink (x :: c) = ink c + 1 := by simp [ink, hspace]
        rw [List.drop_zero, Scan.weight_cat, List.length_singleton] at hle hpc
        refine ⟨hout, by omega, hlast (fun hx => hlit.resolve_left (not_not.mpr hx)) fun hp =>
          hpc (by omega)⟩
      · -- a directive
        cases hd : directive vprintf c s [] with
        | error e => exact absurd h (by simp [hd])
        | ok r =>
          rw [hd, ok_bind] at h
          match r with
          | none => exact absurd h (by simp)
          | some (s', ap', k) =>
            -- without arguments the only directive is the one for a percent sign
            obtain ⟨c', rfl, rfl, rfl, rfl⟩ := directive_nil hd
            obtain ⟨hout, hle, -⟩ := ih (hs.cat_clean (by decide)) h
            have hx : x = '%' := by
              by_contra hx
              exact hlit (Or.inl hx)
            have hink : ink (x :: '%' :: c') = ink c' + 2 := by simp [ink, hx]
            rw [Scan.weight_cat, List.length_singleton] at hle
            simp only [List.drop_succ_cons, List.drop_zero] at hle
            exact ⟨hout, by omega, fun hge => absurd hge (by omega)⟩

/-! ### The commands of `RedisConn` -/

theorem mem_spaced {x : Char} (hx : x ≠ ' ') : x ∈ spaced args ↔ x ∈ args.flatten := by
  simp [spaced, hx]

theorem ink_eq_length (h : ' ' ∉ x) : ink x = x.length := by
  refine List.countP_eq_length.mpr fun y hy => ?_
  simpa using fun he : y = ' ' => h (he ▸ hy)

theorem ink_spaced (h : ∀ a ∈ args, ' ' ∉ a) : ink (spaced args) = args.flatten.length := by
  induction args with
  | nil => rfl
  | cons a args ih =>
    have ha := ink_eq_length (h a List.mem_cons_self)
    have hargs := ih fun b hb => h b (List.mem_cons_of_mem _ hb)
    rw [ink] at ha hargs ⊢
    rw [show spaced (a :: args) = ' ' :: (a ++ spaced args) from rfl,
      List.countP_cons_of_neg (by simp), List.countP_append, ha, hargs]
    simp

/-- Where a `%` may stand in a command. -/
theorem percent_iff (hname : '%' ∉ name) (hne : ∀ a ∈ args, a ≠ []) :
    '%' ∈ (name ++ spaced args).dropLast ↔ '%' ∈ args.flatten.dropLast := by
  rcases List.eq_nil_or_concat args with rfl | ⟨init, l, rfl⟩
  · simpa [spaced] using fun h => hname (List.dropLast_subset _ h)
  · rw [List.concat_eq_append] at hne ⊢
    obtain ⟨l', x, rfl⟩ := (List.eq_nil_or_concat l).resolve_left (hne l (by simp))
    have hcmd : name ++ spaced (init ++ [l'.concat x]) =
        (name ++ (spaced init ++ ' ' :: l')) ++ [x] := by simp [spaced]
    have hflat : (init ++ [l'.concat x]).flatten = (init.flatten ++ l') ++ [x] := by simp
    rw [hcmd, hflat, List.dropLast_concat, List.dropLast_concat]
    simp only [List.mem_append, List.mem_cons, mem_spaced (show '%' ≠ ' ' by decide), hname,
      false_or, show '%' ≠ ' ' by decide]

theorem cStr_eq (h : '\x00' ∉ x) : cStr x = x := by
  refine List.takeWhile_eq_self_iff.mpr fun y hy => ?_
  simpa using fun he : y = '\x00' => h (he ▸ hy)

/-- **A command arrives as it was built** if and only if its arguments are plain. -/
theorem sentArgv_iff (hname : name ≠ []) (hsp : ' ' ∉ name) (hpc : '%' ∉ name)
    (hnul : '\x00' ∉ name) (hargs : NulFree args) :
    sentArgv vprintf (buildCommand name args) = .ok (some (name :: args)) ↔ Plain args := by
  have hcmd : cStr (name ++ spaced args) = name ++ spaced args := by
    refine cStr_eq fun hm => ?_
    rcases List.mem_append.mp hm with hm | hm
    · exact hnul hm
    · obtain ⟨a, ha, hm⟩ := List.mem_flatten.mp ((mem_spaced (by decide)).mp hm)
      exact hargs a ha hm
  rw [sentArgv, buildCommand_eq, hcmd, formatArgv]
  constructor
  · intro h
    have hclean : (⟨[], [], false⟩ : Scan).Clean := ⟨by simp, by simp, by simp⟩
    obtain ⟨hout, -, hlen⟩ := formatLoop_bound hclean h
    have hne : ∀ a ∈ args, a ≠ [] := fun a ha => (hout a (List.mem_cons_of_mem _ ha)).1
    have hsp' : ∀ a ∈ args, ' ' ∉ a := fun a ha => (hout a (List.mem_cons_of_mem _ ha)).2
    refine ⟨hne, hsp', fun hm => ?_⟩
    rw [List.drop_zero, percent_iff hpc hne] at hlen
    refine hlen ?_ hm
    have hink : ink (name ++ spaced args) = name.length + args.flatten.length := by
      rw [← ink_spaced hsp', ← ink_eq_length hsp]
      exact List.countP_append
    simp [hink, Scan.weight]
  · intro hp
    have hpc' : '%' ∉ (name ++ spaced args).dropLast := by
      rw [percent_iff hpc hp.ne_nil]
      exact hp.percent
    rw [formatLoop_text hname hsp hpc', formatLoop_spaced hp.ne_nil hp.space _ rfl]
    · rfl
    · have hno := (@percent_iff args [] List.not_mem_nil hp.ne_nil).not.mpr hp.percent
      simpa using hno

/-- The elements of a reply go to their keys while there are keys. -/
theorem fillValues_ok {keys : List Str} {element : List Reply} {i : ℕ}
    (h : i + element.length ≤ keys.length) (values : Str → Option Str) :
    ∃ values', fillValues keys i element values = .ok values' := by
  induction element generalizing i values with
  | nil => exact ⟨values, rfl⟩
  | cons reply element ih =>
    rw [List.length_cons] at h
    have hget : get Fault.outOfRange keys i = .ok keys[i] :=
      get_of_getElem? (List.getElem?_eq_getElem (by omega))
    rw [fillValues, hget, ok_bind]
    exact ih (by omega) _

/-- **The commands arrive as they were built** for exactly the plain arguments, and then every
element of the reply to `mget` has its key, where the server answers each key with an element. -/
theorem commands_exact_iff :
    (∀ kvs : KeyValues, kvs.entries ≠ [] → NulFree kvs.args →
      (sentArgv vprintf (msetCommand kvs) = .ok (some (['M', 'S', 'E', 'T'] :: kvs.args)) ↔
        Plain kvs.args)) ∧
    (∀ keys : List Str, keys ≠ [] → NulFree keys →
      (sentArgv vprintf (mgetCommand keys) = .ok (some (['M', 'G', 'E', 'T'] :: keys)) ↔
        Plain keys)) ∧
    (∀ keys : List Str, keys ≠ [] → NulFree keys →
      (sentArgv vprintf (delCommand keys) = .ok (some (['D', 'E', 'L'] :: keys)) ↔
        Plain keys)) ∧
    ∀ (server : List Str → Option Reply) (context : Bool) (keys : List Str)
      (values : Str → Option Str),
      (∀ ks reply, server (['M', 'G', 'E', 'T'] :: ks) = some reply → reply.type = .array →
        reply.element.length = ks.length) →
      NulFree keys → Plain keys → ∃ out, mget vprintf server context keys values = .ok out := by
  refine ⟨fun kvs _ hnul => sentArgv_iff (by decide) (by decide) (by decide) (by decide) hnul,
    fun keys _ hnul => sentArgv_iff (by decide) (by decide) (by decide) (by decide) hnul,
    fun keys _ hnul => sentArgv_iff (by decide) (by decide) (by decide) (by decide) hnul,
    fun server context keys values hserver hnul hp => ?_⟩
  have hsent : sentArgv vprintf (mgetCommand keys) = .ok (some (['M', 'G', 'E', 'T'] :: keys)) :=
    (sentArgv_iff (by decide) (by decide) (by decide) (by decide) hnul).mpr hp
  unfold mget
  split_ifs
  · exact ⟨_, rfl⟩
  · simp only [redisCommand, hsent, ok_bind, Option.bind_some]
    cases hreply : server (['M', 'G', 'E', 'T'] :: keys) with
    | none => exact ⟨_, rfl⟩
    | some reply =>
      simp only [getReplyMap]
      split_ifs with harray
      · obtain ⟨values', hfill⟩ := @fillValues_ok keys reply.element 0
          (by rw [Nat.zero_add, hserver keys reply hreply harray]) fun _ => none
        exact ⟨_, by rw [hfill]; rfl⟩
      · exact ⟨_, rfl⟩

end

/-- A server that has none of the keys. -/
def emptyServer : List Str → Option Reply
  | _ :: keys => some ⟨.array, 0, [], keys.map fun _ => ⟨.nil, 0, [], []⟩⟩
  | [] => none

/-- Two keys with their values. -/
def sampleValues : KeyValues := ⟨[(['k'], ['v', 'w']), (['n'], ['1', '%'])], by decide⟩

/-- They are set, and the first of them is asked for with a key that has a `%` at its end. -/
theorem commands_exact_iff_sample :
    sentArgv (fun c (_ : ℕ) => c) (msetCommand sampleValues) =
        .ok (some [['M', 'S', 'E', 'T'], ['k'], ['v', 'w'], ['n'], ['1', '%']]) ∧
      sentArgv (fun c (_ : ℕ) => c) (mgetCommand [['k'], ['a', '%']]) =
        .ok (some [['M', 'G', 'E', 'T'], ['k'], ['a', '%']]) ∧
      ∃ out, mget (fun c (_ : ℕ) => c) emptyServer true [['k'], ['a', '%']] (fun _ => none) =
        .ok out := by
  have hset : NulFree sampleValues.args := by simp [NulFree, sampleValues, KeyValues.args]
  have hget : NulFree [['k'], ['a', '%']] := by simp [NulFree]
  have hp : Plain [['k'], ['a', '%']] := ⟨by decide, by decide, by decide⟩
  refine ⟨(commands_exact_iff.1 sampleValues (by decide) hset).mpr
      ⟨by decide, by decide, by decide⟩, (commands_exact_iff.2.1 _ (by decide) hget).mpr hp,
    commands_exact_iff.2.2.2 emptyServer true _ _ ?_ hget hp⟩
  rintro ks reply he -
  obtain rfl := Option.some.inj he
  simp

/-- **What goes wrong**: a key with a space is two keys, and the reply has an element too many; an
empty value is no argument; and a directive takes an argument that is not there. -/
theorem not_commands_exact_sample :
    sentArgv (fun c (_ : ℕ) => c) (mgetCommand [['a', ' ', 'b']]) =
        .ok (some [['M', 'G', 'E', 'T'], ['a'], ['b']]) ∧
      mget (fun c (_ : ℕ) => c) emptyServer true [['a', ' ', 'b']] (fun _ => none) =
        .error .outOfRange ∧
      sentArgv (fun c (_ : ℕ) => c) (msetCommand ⟨[(['k'], [])], by simp⟩) =
        .ok (some [['M', 'S', 'E', 'T'], ['k']]) ∧
      sentArgv (fun c (_ : ℕ) => c) (delCommand [['%', 's']]) = .error .noArgument := by
  exact ⟨rfl, rfl, rfl, rfl⟩

end Redis

end BackendStudy
