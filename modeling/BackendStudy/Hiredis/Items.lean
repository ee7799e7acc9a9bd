import BackendStudy.Hiredis.Memory
import BackendStudy.Hiredis.Tasks

/-!
# An item is read as the machine reads it

In the middle of a reply the reader is in a state of the machine
(`BackendStudy.Hiredis.Parsing`), and `processItem` does what one or two steps of the machine do:
it waits, it reads an item, or it fails, and then the reply that was being read is freed
(`BackendStudy.Hiredis.Parsing.processItem`). In no case is there a fault.
-/

namespace BackendStudy

namespace Hiredis

open Slots Redis Incremental

/-- **The reader inside of arrays** that are not complete, at the task of an item. -/
structure Within (r : Reader) (fs : List Frame) (t : ReadTask) (ps : List ℕ) : Prop where
  err : r.err = none
  pos : r.pos ≤ r.buf.length
  room : r.buf.length < 2 ^ 31
  length : r.rstack.length = 9
  ridx : r.ridx = fs.length
  depth : fs.length ≤ 8
  stack : Stack r.rstack fs ps
  task : TaskIn r.rstack fs t
  reply : r.reply = ps.getLast?

/-- **The reader in the middle of a reply**, in a state of the machine, where callers hold these
replies. -/
def Parsing (r : Reader) (m : Machine) (es : List ℕ) (rs : List Reply) : Prop :=
  ∃ t ps ns ks, Within r m.frames t ps ∧ t.type = m.type ∧ m.type ≠ some .nil ∧
    Building r.heap.obj none m.frames ps ns ∧ Memory r.heap ns es rs ks

/-- An item has been read, and its object is in the innermost array. -/
def Created (r : Reader) (fs : List Frame) (q : ℕ) (v : Reply) (es : List ℕ) (rs : List Reply) :
    Prop :=
  ∃ t ps ns qs ks, Within r fs t ps ∧ Building r.heap.obj (some q) fs ps ns ∧
    Holds r.heap.obj q v qs ∧ Memory r.heap (ns ++ qs) es rs ks

/-- **A reply has been read.** -/
structure Done (r : Reader) (v : Reply) (es : List ℕ) (rs : List Reply) : Prop where
  err : r.err = none
  pos : r.pos ≤ r.buf.length
  room : r.buf.length < 2 ^ 31
  length : r.rstack.length = 9
  ridx : r.ridx = -1
  reply : ∃ p ns ks, r.reply = some p ∧ Holds r.heap.obj p v ns ∧ Memory r.heap ns es rs ks

/-- **The reader has failed**, and what was being read is not there any more. -/
structure Failed (r : Reader) (e : Str) (es : List ℕ) (rs : List Reply) : Prop where
  err : r.err = some (.protocol, e.take 127)
  reply : r.reply = none
  memory : ∃ ks, Memory r.heap [] es rs ks

/-- Where the reader is when an item has been read: in the middle of a reply, or at its end. -/
def Lands (r : Reader) (es : List ℕ) (rs : List Reply) (m : Machine) : Option Reply → Prop
  | none => Parsing r m es rs
  | some v => m = .start ∧ Done r v es rs

/-- What the reader does where a step of the machine has this outcome. -/
def Follows (r : Reader) (m : Machine) (es : List ℕ) (rs : List Reply)
    (x : Except Fault (Status × Reader)) : Outcome Machine Reply Str → Prop
  | .wait => ∃ r', x = .ok (.err, r') ∧ r'.unread = r.unread ∧ Parsing r' m es rs
  | .fail e => ∃ r', x = .ok (.err, r') ∧ Failed r' e es rs
  | .next n m' o => ∃ r', x = .ok (.ok, r') ∧ r'.unread = r.unread.drop n ∧ 0 < n ∧
      n ≤ r.unread.length ∧ Lands r' es rs m' o

section

variable {r : Reader} {m : Machine} {fs : List Frame} {f : Frame} {t : ReadTask} {ty : ReplyType}
  {ps ns qs ks es : List ℕ} {rs : List Reply} {v : Reply} {o : ReplyObj} {q k n : ℕ} {e : Str}

theorem Reader.length_unread (r : Reader) : r.unread.length = r.buf.length - r.pos :=
  List.length_drop

/-- Bytes are read. -/
def Reader.advance (r : Reader) (k : ℕ) : Reader := { r with pos := r.pos + k }

theorem Reader.unread_advance : (r.advance k).unread = r.unread.drop k := by
  rw [unread, unread, List.drop_drop]
  rfl

/-- There are so many bytes to be read. -/
theorem Within.le_iff (hw : Within r fs t ps) :
    r.pos + n ≤ r.buf.length ↔ n ≤ r.unread.length := by
  have hpos := hw.pos
  rw [r.length_unread]
  omega

theorem Within.advance (hw : Within r fs t ps) (hk : k ≤ r.unread.length) :
    Within (r.advance k) fs t ps :=
  ⟨hw.err, hw.le_iff.mpr hk, hw.room, hw.length, hw.ridx, hw.depth, hw.stack, hw.task, hw.reply⟩

theorem Within.heap (hw : Within r fs t ps) (g : Heap) : Within { r with heap := g } fs t ps :=
  ⟨hw.err, hw.pos, hw.room, hw.length, hw.ridx, hw.depth, hw.stack, hw.task, hw.reply⟩

theorem Parsing.advance (hr : Parsing r m es rs) (hk : k ≤ r.unread.length) :
    Parsing (r.advance k) m es rs := by
  obtain ⟨t, ps, ns, ks, hw, htype, hnil, hb, hm⟩ := hr
  exact ⟨t, ps, ns, ks, hw.advance hk, htype, hnil, hb, hm⟩

theorem Created.advance (hr : Created r fs q v es rs) (hk : k ≤ r.unread.length) :
    Created (r.advance k) fs q v es rs := by
  obtain ⟨t, ps, ns, qs, ks, hw, hb, hv, hm⟩ := hr
  exact ⟨t, ps, ns, qs, ks, hw.advance hk, hb, hv, hm⟩

/-- The task of the item that is being read. -/
theorem Within.task_eq (hw : Within r fs t ps) : r.task r.ridx = .ok t := by
  have hplace := hw.task.place
  rw [Reader.task, hw.ridx, if_pos (by omega), Int.toNat_natCast, Slots.get, hplace]

/-! ### A new object -/

/-- **A new object** is entered into the innermost array. -/
theorem Within.createObject_eq (hw : Within r fs t ps) (hb : Building r.heap.obj none fs ps ns)
    (hm : Memory r.heap ns es rs ks) (o : ReplyObj) :
    ∃ g, createObject r t o = .ok (r.heap.next, { r with heap := g }) ∧
      g.obj r.heap.next = some o ∧ Building g.obj (some r.heap.next) fs ps ns ∧
      Memory g (r.heap.next :: ns) es rs ks := by
  -- the new object is none of those that are being built
  have hnew : r.heap.next ∉ ns := fun hin => hm.next_notMem (List.mem_append_left _ hin)
  have hrest : ∀ k ∈ ns, (r.heap.alloc o).2.obj k = r.heap.obj k := fun k hk =>
    Function.update_of_ne (by rintro rfl; exact hnew hk) _ _
  have hb' := hb.congr hrest
  have hm' := hm.alloc o
  have hself : (r.heap.alloc o).2.obj r.heap.next = some o := Function.update_self _ _ _
  have hparent := hw.task.parent
  have hidx := hw.task.idx
  have hstack := hw.stack
  cases hstack with
  -- outside of an array the object stays by itself
  | nil =>
    refine ⟨(r.heap.alloc o).2, ?_, hself, ?_, hm'⟩
    · rw [createObject]
      simp only [hparent, parentIn]
      rfl
    · cases hb'
      exact .nil
  | @cons f fs p ps u hu htype helements hobj hs =>
    -- in an array it is written to the cell of its place
    have hnodup : ns.Nodup := (List.nodup_append.mp hm.nodup).1
    obtain ⟨g, hset, hnext, hbuilt, hp, heq⟩ := hb'.setElement (q := r.heap.next) hnodup
    have hne : r.heap.next ≠ p := by
      rintro rfl
      exact hnew hp
    refine ⟨g, ?_, (heq _ hne).trans hself, hbuilt, ?_⟩
    · rw [createObject]
      simp only [hparent, parentIn, hidx, idxIn, Slots.get, hu.place, ok_bind, hobj]
      change ((r.heap.alloc o).2.setElement (some p) f.done.length r.heap.next >>= _) = _
      rw [hset]
      rfl
    · exact hm'.write (List.mem_cons_of_mem _ hp) (hbuilt.isSome p hp) heq hnext

/-- An object without elements. -/
theorem Within.createLeaf (hw : Within r fs t ps) (hb : Building r.heap.obj none fs ps ns)
    (hm : Memory r.heap ns es rs ks) (ty : ReplyType) (z : ℤ) (s : Str) :
    ∃ g, createObject r t ⟨ty, z, s, []⟩ = .ok (r.heap.next, { r with heap := g }) ∧
      Created { r with heap := g } fs r.heap.next ⟨ty, z, s, []⟩ es rs := by
  obtain ⟨g, hcreate, hself, hbuilt, hmem⟩ := hw.createObject_eq hb hm ⟨ty, z, s, []⟩
  refine ⟨g, hcreate, t, ps, ns, [r.heap.next], ks, hw.heap g, hbuilt,
    .leaf hself, hmem.perm ?_⟩
  exact List.perm_append_comm

/-! ### The end of an item -/

/-- The reply is the outermost array, or the item itself where there is none. -/
theorem root_eq {i : ℤ} (hi : i = fs.length) (hlen : ps.length = fs.length)
    (hreply : r.reply = ps.getLast?) :
    (if i = 0 then { r with reply := some q } else r) =
      { r with reply := ps.getLast?.or (some q) } := by
  rcases ps.eq_nil_or_concat with rfl | ⟨ps, p, rfl⟩
  · rw [if_pos]
    · rfl
    · rw [hi, ← hlen]
      rfl
  · rw [List.concat_eq_append, List.length_append, List.length_singleton] at hlen
    rw [List.concat_eq_append, List.getLast?_concat] at hreply ⊢
    rw [if_neg (by omega), Option.some_or, ← hreply]

/-- **An item has been read**, and the reader goes on as the machine does. -/
theorem Created.itemDone_eq (hr : Created r fs q v es rs) :
    ∃ r', itemDone r q = .ok (.ok, r') ∧ r'.unread = r.unread ∧
      Lands r' es rs ⟨(finish fs v).1, none⟩ (finish fs v).2 := by
  obtain ⟨t, ps, ns, qs, ks, hw, hb, hv, hm⟩ := hr
  have hridx := hw.ridx
  have hroot := root_eq (q := q) hridx hb.length_eq hw.reply
  rw [itemDone, hroot, moveToNextTask]
  simp only [hridx, Int.toNat_natCast]
  rw [if_pos (by omega)]
  rcases moveLoop_spec hw.stack hw.task hb hv with ⟨ho, rstack', ps', ns', t', hlook, hlen, hs',
    ht', htype', hne, hb', hperm, hlast⟩ | ⟨v', p', ns', hfin, hlook, hlast, hv', hperm⟩
  · rw [hlook, ho]
    refine ⟨_, rfl, rfl, t', ps', ns', ks, ?_, htype', by simp, hb', hm.perm hperm⟩
    have hdepth : (finish fs v).1.length ≤ 8 := by
      have hplace := ht'.place
      have hin := (List.getElem?_eq_some_iff.mp hplace).1
      rw [hlen, hw.length] at hin
      omega
    have hsome : ps.getLast?.or (some q) = ps'.getLast? := by
      have hne' : ps' ≠ [] := fun hps => hne (List.length_eq_zero_iff.mp (by
        rw [← hb'.length_eq, hps]
        rfl))
      rw [← hlast, List.getLast?_eq_some_getLast hne', Option.some_or]
    exact ⟨hw.err, hw.pos, hw.room, hlen.trans hw.length, rfl, hdepth, hs', ht', hsome⟩
  · rw [hlook, hfin]
    refine ⟨_, rfl, rfl, rfl, hw.err, hw.pos, hw.room, hw.length, rfl, p', ns', ks, ?_, hv',
      hm.perm hperm⟩
    exact hlast

/-- **An item cannot be read**: what was being read is freed. -/
theorem Parsing.itemError_eq (hr : Parsing r m es rs) (e : Str) :
    ∃ r', itemError r e = .ok (.err, r') ∧ Failed r' e es rs := by
  obtain ⟨t, ps, ns, ks, hw, -, -, hb, hm⟩ := hr
  obtain ⟨js, howns, hperm⟩ := hb.owns .null
  rw [List.append_nil] at hperm
  have hm' : Memory r.heap (js ++ []) es rs ks := by
    rw [List.append_nil]
    exact hm.perm hperm
  rw [Option.or_none, ← hw.reply] at howns
  obtain ⟨g, hfree, hmem, -⟩ := hm'.freeReplyObject howns
  have herror : itemError r e = .ok (.err, { r with
      err := some (.protocol, e.take 127), buf := [], pos := 0, ridx := -1, reply := none,
      heap := g }) := by
    rw [itemError, Reader.setError, Reader.freeReply, hfree]
    rfl
  exact ⟨_, herror, rfl, rfl, ks, hmem⟩

/-! ### The kinds of items -/

/-- It does not matter whether an object is created before bytes are read or after. -/
theorem createObject_advance {r' : Reader} (h : createObject r t o = .ok (q, r')) :
    createObject (r.advance k) t o = .ok (q, r'.advance k) := by
  cases hparent : t.parent with
  | none =>
    simp only [createObject, Heap.alloc, hparent] at h ⊢
    obtain ⟨rfl, rfl⟩ := Prod.mk.inj (Except.ok.inj h)
    rfl
  | some i =>
    simp only [createObject, Heap.alloc, hparent] at h ⊢
    obtain ⟨parent, hget, h⟩ := bind_eq_ok h
    obtain ⟨g, hset, h⟩ := bind_eq_ok h
    obtain ⟨rfl, rfl⟩ := Prod.mk.inj (Except.ok.inj h)
    simp only [Reader.advance, hget, ok_bind, hset]

theorem seekNewline_unread (hroom : r.buf.length < 2 ^ 31) :
    seekNewline r.unread = newline r.unread := by
  refine seekNewline_eq ?_
  rw [r.length_unread]
  omega

/-- **Where the item is a line**: the reader waits for the end of it, as the machine does. -/
theorem follows_onLine {x : Except Fault (Status × Reader)}
    {g : ℕ → Str → Outcome Machine Reply Str} (hr : Parsing r m es rs)
    (hwait : newline r.unread = none → x = .ok (.err, r))
    (hline : ∀ k, newline r.unread = some k → k + 2 ≤ r.unread.length →
      Follows r m es rs x (g k (r.unread.take k))) :
    Follows r m es rs x (onLine r.unread g) := by
  unfold onLine
  cases hu : newline r.unread with
  | none => exact ⟨r, hwait hu, rfl, hr⟩
  | some k =>
    refine hline k hu ?_
    obtain ⟨l, v, hsplit, rfl, -⟩ := exists_line hu
    rw [hsplit]
    simp [crlf]

theorem Parsing.follows_fail {x : Except Fault (Status × Reader)} (hr : Parsing r m es rs)
    (hk : k ≤ r.unread.length) (hx : x = itemError (r.advance k) e) :
    Follows r m es rs x (.fail e) := by
  obtain ⟨r', herror, hfail⟩ := (hr.advance hk).itemError_eq e
  exact ⟨r', hx.trans herror, hfail⟩

/-- An item without elements has been read. -/
theorem Within.follows_emit {x : Except Fault (Status × Reader)} {z : ℤ} {s : Str}
    (hw : Within r m.frames t ps) (hb : Building r.heap.obj none m.frames ps ns)
    (hm : Memory r.heap ns es rs ks) (hk : k ≤ r.unread.length) (hpos : 0 < k)
    (hx : ∀ q g, createObject r t ⟨ty, z, s, []⟩ = .ok (q, { r with heap := g }) →
      x = itemDone ({ r with heap := g }.advance k) q) :
    Follows r m es rs x (m.emit k ⟨ty, z, s, []⟩) := by
  obtain ⟨g, hcreate, hcreated⟩ := hw.createLeaf hb hm ty z s
  obtain ⟨r', hdone, hunread, hlands⟩ := (hcreated.advance hk).itemDone_eq
  refine ⟨r', (hx _ _ hcreate).trans hdone, ?_, hpos, hk, hlands⟩
  rw [hunread, Reader.unread_advance]
  rfl

theorem readLine_of_none (hroom : r.buf.length < 2 ^ 31) (h : newline r.unread = none) :
    readLine r = none := by
  rw [readLine, seekNewline_unread hroom, h]
  rfl

theorem readLine_of_some (hroom : r.buf.length < 2 ^ 31) (h : newline r.unread = some k) :
    readLine r = some (r.unread.take k, r.advance (k + 2)) := by
  rw [readLine, seekNewline_unread hroom, h]
  rfl

/-- **A status, an error or a number** is read as the machine reads it. -/
theorem Parsing.processLineItem_follows (hr : Parsing r ⟨fs, some ty⟩ es rs)
    (hty : ty = .status ∨ ty = .error ∨ ty = .integer) :
    Follows r ⟨fs, some ty⟩ es rs (processLineItem r)
      (Machine.stepLine ⟨fs, some ty⟩ ty r.unread) := by
  obtain ⟨t, ps, ns, ks, hw, htype, -, hb, hm⟩ := id hr
  refine follows_onLine hr (fun hu => ?_) fun k hu hk => ?_
  · rw [processLineItem, hw.task_eq, ok_bind, readLine_of_none hw.room hu]
  · rw [processLineItem, hw.task_eq, ok_bind, readLine_of_some hw.room hu]
    simp only [htype, Option.some.injEq]
    split_ifs with hint
    · cases hz : string2ll (r.unread.take k) with
      | none => exact hr.follows_fail hk rfl
      | some z =>
        refine hw.follows_emit hb hm hk (by omega) fun q g hcreate => ?_
        simp only [createIntegerObject, createObject_advance hcreate, ok_bind]
    · refine hw.follows_emit hb hm hk (by omega) fun q g hcreate => ?_
      rcases hty with rfl | rfl | rfl
      · simp only [createStringObject, htype, createObject_advance hcreate, ok_bind]
      · simp only [createStringObject, htype, createObject_advance hcreate, ok_bind]
      · exact absurd rfl hint

/-- **A string** is read as the machine reads it. -/
theorem Parsing.processBulkItem_follows (hr : Parsing r ⟨fs, some .string⟩ es rs) :
    Follows r ⟨fs, some .string⟩ es rs (processBulkItem r)
      (Machine.stepBulk ⟨fs, some .string⟩ r.unread) := by
  obtain ⟨t, ps, ns, ks, hw, htype, -, hb, hm⟩ := id hr
  have hseek := seekNewline_unread hw.room
  refine follows_onLine hr (fun hu => ?_) fun k hu hk => ?_
  · rw [processBulkItem, hw.task_eq, ok_bind, hseek, hu]
  · rw [processBulkItem, hw.task_eq, ok_bind, hseek, hu]
    simp only [hw.le_iff]
    cases hz : string2ll (r.unread.take k) with
    | none => exact hr.follows_fail (Nat.zero_le _) rfl
    | some len =>
      dsimp only
      split_ifs with hrange hnil hroom
      · exact hr.follows_fail (Nat.zero_le _) rfl
      · refine hw.follows_emit hb hm hk (by omega) fun q g hcreate => ?_
        simp only [createNilObject, hcreate, ok_bind]
        rfl
      · refine hw.follows_emit hb hm hroom (by omega) fun q g hcreate => ?_
        simp only [createStringObject, htype, hcreate, ok_bind]
        rfl
      · exact ⟨r, rfl, rfl, hr⟩

/-- It does not matter whether the root is written before the reader goes on or after. -/
theorem itemDone_eq_move : itemDone r q = (do
    let r' ← moveToNextTask r
    .ok (.ok, if r.ridx = 0 then { r' with reply := some q } else r')) := by
  rw [itemDone]
  by_cases hroot : r.ridx = 0
  · simp only [if_pos hroot, moveToNextTask]
    rw [if_pos (by omega), if_pos (by omega)]
    cases moveLoop r.ridx.toNat r.rstack <;> rfl
  · simp only [if_neg hroot]

/-- **The elements of an array** are next. -/
theorem Within.pushTask_spec (hw : Within r fs t ps) (htype : t.type = some .array)
    (hdeep : fs.length ≠ 8) (n q : ℕ) :
    ∃ r' t', pushTask r t n q = .ok r' ∧ r'.unread = r.unread ∧ r'.heap = r.heap ∧
      r'.reply = r.reply ∧ t'.type = none ∧
      Within { r' with reply := ps.getLast?.or (some q) } (⟨n, []⟩ :: fs) t' (q :: ps) := by
  have hdepth := hw.depth
  have hlen := hw.length
  have hset : ∀ (r : Reader) (i : ℕ) (u : ReadTask), i < r.rstack.length →
      r.setTask i u = .ok { r with rstack := r.rstack.set i u } := fun r i u hi => by
    rw [Reader.setTask, if_pos (by omega), Int.toNat_natCast, put, if_pos hi]
    rfl
  have hnext : ((fs.length : ℤ) + 1) = ((fs.length + 1 : ℕ) : ℤ) := by omega
  have hpush : pushTask r t n q = .ok { r with
      rstack := (r.rstack.set fs.length { t with elements := n, obj := some q }).set
        (fs.length + 1) ⟨none, -1, 0, none, some fs.length⟩
      ridx := fs.length + 1 } := by
    rw [pushTask, hw.ridx, hset _ _ _ (by omega), ok_bind]
    dsimp only
    rw [hw.ridx, hnext, hset _ _ _ (by rw [List.length_set]; omega), ok_bind, Int.toNat_natCast]
  -- the task of the array, below the new one
  have htask : TaskIn (r.rstack.set fs.length { t with elements := n, obj := some q }) fs
      { t with elements := n, obj := some q } :=
    ⟨List.getElem?_set_self (by omega), hw.task.idx, hw.task.parent⟩
  refine ⟨_, ⟨none, -1, 0, none, some fs.length⟩, hpush, rfl, rfl, rfl, rfl, hw.err, hw.pos,
    hw.room, ?_, rfl, ?_, ?_, ⟨?_, rfl, rfl⟩, ?_⟩
  · rw [List.length_set, List.length_set, hlen]
  · rw [List.length_cons]
    omega
  · exact .cons (htask.set (Nat.lt_succ_self _)) htype rfl rfl
      ((hw.stack.set le_rfl).set (Nat.le_succ _))
  · exact List.getElem?_set_self (by rw [List.length_set]; omega)
  · rw [List.getLast?_cons]
    cases ps.getLast? <;> rfl

/-- **An array is opened.** -/
theorem Within.follows_open {x : Except Fault (Status × Reader)}
    (hw : Within r fs t ps) (htype : t.type = some .array)
    (hb : Building r.heap.obj none fs ps ns) (hm : Memory r.heap ns es rs ks)
    (hdeep : fs.length ≠ 8) (hn : 0 < n) (hk : k ≤ r.unread.length) (hpos : 0 < k)
    (hx : ∀ q g r', createObject r t ⟨.array, 0, [], List.replicate n none⟩ =
        .ok (q, { r with heap := g }) → pushTask ({ r with heap := g }.advance k) t n q = .ok r' →
      x = .ok (.ok, if r.ridx = 0 then { r' with reply := some q } else r')) :
    Follows r m es rs x (.next k ⟨⟨n, []⟩ :: fs, none⟩ none) := by
  obtain ⟨g, hcreate, hself, hbuilt, hmem⟩ :=
    hw.createObject_eq hb hm ⟨.array, 0, [], List.replicate n none⟩
  obtain ⟨r', t', hpush, hunread, hheap, hreply, htype', hw'⟩ :=
    ((hw.heap g).advance hk).pushTask_spec htype hdeep n r.heap.next
  have hroot := root_eq (r := r') (q := r.heap.next) hw.ridx hb.length_eq
    (hreply.trans hw.reply)
  have hx' := hx _ _ _ hcreate hpush
  rw [hroot] at hx'
  refine ⟨_, hx', ?_, hpos, hk, t', r.heap.next :: ps, r.heap.next :: ([] ++ ns), ks, hw', htype',
    by simp, ?_, ?_⟩
  · exact hunread.trans Reader.unread_advance
  · change Building r'.heap.obj _ _ _ _
    rw [hheap]
    have harray : g.obj r.heap.next = some ⟨.array, 0, [], ([] : List ℕ).map some ++
        none :: List.replicate (n - 0 - 1) none⟩ := by
      rw [hself]
      obtain ⟨j, rfl⟩ : ∃ j, n = j + 1 := ⟨n - 1, by omega⟩
      simp [List.replicate_succ]
    exact .cons harray hn .nil hbuilt
  · change Memory r'.heap _ _ _ _
    rw [hheap]
    exact hmem

/-- **An array** is read as the machine reads it. -/
theorem Parsing.processMultiBulkItem_follows (hr : Parsing r ⟨fs, some .array⟩ es rs) :
    Follows r ⟨fs, some .array⟩ es rs (processMultiBulkItem r)
      (Machine.stepMulti ⟨fs, some .array⟩ r.unread) := by
  obtain ⟨t, ps, ns, ks, hw, htype, -, hb, hm⟩ := id hr
  have hridx : r.ridx = 8 ↔ fs.length = 8 := by
    rw [hw.ridx]
    exact Nat.cast_inj
  rw [processMultiBulkItem, hw.task_eq, ok_bind]
  simp only [hridx, Machine.stepMulti]
  split_ifs with hdeep
  -- a size has been read, and is refused, or is that of no array, of an array or of an empty one
  · exact hr.follows_fail (Nat.zero_le _) rfl
  refine follows_onLine hr (fun hu => ?_) fun k hu hk => ?_
  · rw [readLine_of_none hw.room hu]
  · rw [readLine_of_some hw.room hu]
    dsimp only
    cases hz : string2ll (r.unread.take k) with
    | none => exact hr.follows_fail hk rfl
    | some elements =>
      dsimp only
      by_cases hrange : elements < -1 ∨ elements > 2 ^ 31 - 1
      · simp only [if_pos hrange]
        exact hr.follows_fail hk rfl
      by_cases hnil : elements = -1
      · simp only [if_neg hrange, if_pos hnil]
        refine hw.follows_emit hb hm hk (by omega) fun q g hcreate => ?_
        rw [createNilObject, createObject_advance hcreate, ok_bind, itemDone_eq_move]
        cases moveToNextTask ({ r with heap := g }.advance (k + 2)) <;> rfl
      by_cases hpos : elements > 0
      · obtain ⟨n, rfl⟩ : ∃ n : ℕ, elements = n := ⟨elements.toNat, by omega⟩
        simp only [if_neg hrange, if_neg hnil, if_pos hpos, Int.toNat_natCast]
        refine hw.follows_open htype hb hm hdeep (by omega) hk (by omega)
          fun q g r' hcreate hpush => ?_
        rw [createArrayObject, createObject_advance hcreate, ok_bind]
        simp only [hpush, ok_bind]
        rfl
      -- an empty array is complete at once
      · obtain rfl : elements = 0 := by omega
        simp only [if_neg hrange, if_neg hnil, if_neg hpos]
        refine hw.follows_emit hb hm hk (by omega) fun q g hcreate => ?_
        have hcreate' := createObject_advance (k := k + 2) hcreate
        rw [createArrayObject, itemDone_eq_move]
        simp only [Int.toNat_zero, List.replicate_zero, hcreate', ok_bind]
        cases moveToNextTask ({ r with heap := g }.advance (k + 2)) <;> rfl

/-- The type of an item has been read. -/
theorem Parsing.setType (hr : Parsing r ⟨fs, none⟩ es rs) (hty : ty ≠ .nil) :
    ∃ t r', r.task r.ridx = .ok t ∧ t.type = none ∧
      r.setTask r.ridx { t with type := some ty } = .ok r' ∧ r'.unread = r.unread ∧
      Parsing r' ⟨fs, some ty⟩ es rs := by
  obtain ⟨t, ps, ns, ks, hw, htype, -, hb, hm⟩ := hr
  have hdepth : fs.length ≤ 8 := hw.depth
  have hlen := hw.length
  have hset : r.setTask r.ridx { t with type := some ty } =
      .ok { r with rstack := r.rstack.set fs.length { t with type := some ty } } := by
    rw [Reader.setTask, hw.ridx, if_pos (by omega), Int.toNat_natCast, put,
      if_pos (by change fs.length < _; omega)]
    rfl
  refine ⟨t, _, hw.task_eq, htype, hset, rfl, { t with type := some ty }, ps, ns, ks, ?_, rfl,
    by simpa using hty, hb, hm⟩
  exact ⟨hw.err, hw.pos, hw.room, by rw [List.length_set, hlen], hw.ridx, hdepth,
    hw.stack.set le_rfl, ⟨List.getElem?_set_self (by omega), hw.task.idx, hw.task.parent⟩,
    hw.reply⟩

/-- Nothing is to be done where the type has been read. -/
theorem Parsing.readType_eq (hr : Parsing r ⟨fs, some ty⟩ es rs) :
    readType r = .ok (.ok, r) := by
  obtain ⟨t, ps, ns, ks, hw, htype, -, -, -⟩ := hr
  rw [readType, hw.task_eq, ok_bind, htype]
  rfl

/-- An item is read whose type has been read. -/
theorem Parsing.processItem_follows (hr : Parsing r ⟨fs, some ty⟩ es rs) :
    Follows r ⟨fs, some ty⟩ es rs (processItem r) (step ⟨fs, some ty⟩ r.unread) := by
  obtain ⟨t, ps, ns, ks, hw, htype, hnil, hb, hm⟩ := id hr
  rw [processItem, hr.readType_eq, ok_bind]
  simp only [hw.task_eq, ok_bind, htype]
  cases ty with
  | nil => exact absurd rfl hnil
  | string => exact hr.processBulkItem_follows
  | array => exact hr.processMultiBulkItem_follows
  | integer => exact hr.processLineItem_follows (.inr (.inr rfl))
  | status => exact hr.processLineItem_follows (.inl rfl)
  | error => exact hr.processLineItem_follows (.inr (.inl rfl))

/-- **What an item comes to**: the reader waits, it has read the item, or it has failed. -/
inductive Comes (r : Reader) (m : Machine) (es : List ℕ) (rs : List Reply) : Status → Reader → Prop
  /-- There is not enough of the item. -/
  | waits {m' : Machine} {r' : Reader} : Reads step m r.unread [] m' r'.unread →
      step m' r'.unread = .wait → Parsing r' m' es rs → Comes r m es rs .err r'
  /-- The item has been read, and it is not empty. -/
  | reads {m' : Machine} {o : Option Reply} {r' : Reader} :
      Reads step m r.unread o.toList m' r'.unread → r'.unread.length < r.unread.length →
      Lands r' es rs m' o → Comes r m es rs .ok r'
  /-- The item cannot be read. -/
  | fails {m' : Machine} {u : Str} {e : Str} {r' : Reader} : Reads step m r.unread [] m' u →
      step m' u = .fail e → Failed r' e es rs → Comes r m es rs .err r'

/-- What an item comes to by what is left when its type has been read. -/
theorem Comes.of_follows {r₀ : Reader} {m₀ : Machine} {x : Except Fault (Status × Reader)}
    (hread : Reads step m₀ r₀.unread [] m r.unread) (hle : r.unread.length ≤ r₀.unread.length)
    (hx : Follows r m es rs x (step m r.unread)) :
    ∃ s r', x = .ok (s, r') ∧ Comes r₀ m₀ es rs s r' := by
  cases hs : step m r.unread with
  | wait =>
    rw [hs] at hx
    obtain ⟨r', hx, hunread, hr'⟩ := hx
    exact ⟨_, r', hx, .waits (hunread ▸ hread) (hunread ▸ hs) hr'⟩
  | fail e =>
    rw [hs] at hx
    obtain ⟨r', hx, hr'⟩ := hx
    exact ⟨_, r', hx, .fails hread hs hr'⟩
  | next n m' o =>
    rw [hs] at hx
    obtain ⟨r', hx, hunread, hpos, hn, hr'⟩ := hx
    have hread' := hread.snoc hs
    rw [← hunread, List.nil_append] at hread'
    refine ⟨_, r', hx, .reads hread' ?_ hr'⟩
    rw [hunread, List.length_drop]
    omega

/-- **An item is read** as the machine reads it, without a fault. -/
theorem Parsing.processItem_comes (hr : Parsing r m es rs) :
    ∃ s r', processItem r = .ok (s, r') ∧ Comes r m es rs s r' := by
  rcases m with ⟨fs, _ | ty⟩
  -- the type of the item is to be read first
  · cases hu : r.unread with
    | nil =>
      obtain ⟨t, ps, ns, ks, hw, htype, -, -, -⟩ := id hr
      have hbytes : readBytes r 1 = none := by
        rw [readBytes, if_neg]
        rw [← r.length_unread, hu]
        decide
      refine ⟨_, r, ?_, .waits .nil (by rw [hu]; rfl) hr⟩
      rw [processItem, readType, hw.task_eq, ok_bind, htype]
      simp only [Option.isNone_none, if_true, hbytes, ok_bind]
    | cons c u =>
      have hlen : 1 ≤ r.unread.length := by simp [hu]
      have hbytes : readBytes r 1 = some (r.unread, r.advance 1) := by
        rw [readBytes, if_pos (r.length_unread ▸ hlen)]
        rfl
      have hadvance : (r.advance 1).unread = u := by rw [Reader.unread_advance, hu, List.drop_one,
        List.tail_cons]
      cases hc : itemType c with
      | none =>
        have hstep : step ⟨fs, none⟩ r.unread = .fail (protocolByteError c) := by
          rw [hu]
          simp only [step, hc]
        obtain ⟨t, ps, ns, ks, hw, htype, -, -, -⟩ := id hr
        obtain ⟨r', herror, hfail⟩ := (hr.advance hlen).itemError_eq (protocolByteError c)
        refine ⟨_, r', ?_, .fails .nil hstep hfail⟩
        rw [processItem, readType, hw.task_eq, ok_bind, htype]
        simp only [Option.isNone_none, if_true, hbytes, hu, hc, herror, ok_bind]
      | some ty =>
        have hnil : ty ≠ .nil := by
          rintro rfl
          unfold itemType at hc
          split_ifs at hc <;> cases hc
        have hstep : step ⟨fs, none⟩ r.unread = .next 1 ⟨fs, some ty⟩ none := by
          rw [hu]
          simp only [step, hc]
        obtain ⟨t, r', htask, htype, hset, hunread, hr'⟩ := (hr.advance hlen).setType hnil
        have htype' : readType r = .ok (.ok, r') := by
          change r.task r.ridx = .ok t at htask
          rw [readType, htask, ok_bind, htype]
          simp only [Option.isNone_none, if_true, hbytes, hu, hc]
          rw [hset]
          rfl
        -- behind the type the item is read as if the type had been there before
        have hsame : processItem r = processItem r' := by
          rw [processItem, htype', processItem, hr'.readType_eq]
        have hread := Reads.single hstep
        rw [← Reader.unread_advance, ← hunread] at hread
        rw [hsame]
        refine Comes.of_follows hread ?_ hr'.processItem_follows
        rw [hunread, hadvance, hu]
        exact Nat.le_succ _
  · exact Comes.of_follows .nil le_rfl hr.processItem_follows

end

end Hiredis

end BackendStudy
