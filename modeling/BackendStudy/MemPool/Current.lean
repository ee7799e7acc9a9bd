import BackendStudy.MemPool.Buckets

/-!
# The current block

The search for space starts at the current block, and a new block is linked in behind the last
one that is reached from it. So the current block must not be null
(`BackendStudy.MemPool.MpPool.CurrentLive`). A block that has failed four times is passed over:
the current block is then the next one, which for the last block is null.

The last block fails more than once only if there was no memory for a new block. The current
block is lost exactly when a request fails in the last block that has failed three times before
(`BackendStudy.MemPool.run_currentLive_iff`), as four requests without memory in a row do
(`BackendStudy.MemPool.not_currentLive_sample`).

In these runs pieces may be cut that are too large for their block. The headers that are then
written behind the block are taken to hit nothing of the pool.
-/

namespace BackendStudy

namespace MemPool

/-- The current block is one of the blocks. -/
def MpPool.CurrentLive (p : MpPool) : Prop := ∃ i, p.currentBlock = some i ∧ i < p.blocks.length

/-- A search for room for a piece either succeeds or leaves the last block in use. -/
def MpPool.TailSpared (p : MpPool) (size : ℕ) : Prop :=
  ∀ i, p.currentBlock = some i →
    (∃ b ∈ p.blocks.drop i, size + sizeofPiece ≤ restBlockSpace b) ∨
      ∀ b, p.blocks.getLast? = some b → b.failed.failedTime < mpMaxBlockFailTime

/-- The calls that search for room, with the size of the piece they need. -/
inductive Searches (c : Client) : Op → ℕ → Prop
  /-- A piece. -/
  | piece {size : ℕ} {supply : Supply} : 0 < size → size ≤ c.pool.blockSize →
      Searches c (.malloc size supply) size
  /-- A new descriptor, where no other is free. -/
  | bucket {size : ℕ} {supply : Supply} {last : Option ℕ} : c.pool.blockSize < size →
      Loop.Returns (fun n => Chain.seek c.pool.nextBucket
        (fun a => (c.pool.bucketAt a).startOfBucket.isNone) n c.pool.firstBucket
        c.pool.firstBucket) (none, last) → Searches c (.malloc size supply) sizeofBucket

/-- The condition on the calls. -/
def SparesTail (c : Client) (op : Op) : Prop := ∀ size, Searches c op size → c.pool.TailSpared size

/-! ### What a call does to the chain -/

/-- The chain of blocks as the search for space has left it. -/
structure SameChain (p p' : MpPool) : Prop where
  failed : p'.blocks.map MpBlock.failedTime = p.blocks.map MpBlock.failedTime
  current : p'.currentBlock = p.currentBlock

/-- The chain of blocks, to be searched from the start. -/
structure Rewound (p p' : MpPool) : Prop where
  length : p'.blocks.length = p.blocks.length
  current : p'.currentBlock = some 0

section

variable {p p' p'' : MpPool} {i size n : ℕ}

theorem SameChain.of_eq (hblocks : p'.blocks = p.blocks)
    (hcurrent : p'.currentBlock = p.currentBlock) : SameChain p p' :=
  ⟨congrArg _ hblocks, hcurrent⟩

theorem SameChain.refl (p : MpPool) : SameChain p p := .of_eq rfl rfl

theorem SameChain.trans (h : SameChain p p') (h' : SameChain p' p'') : SameChain p p'' :=
  ⟨h'.failed.trans h.failed, h'.current.trans h.current⟩

theorem SameChain.length (h : SameChain p p') : p'.blocks.length = p.blocks.length := by
  have hlength := congrArg List.length h.failed
  rwa [List.length_map, List.length_map] at hlength

theorem SameChain.rewound (h : SameChain p p') (h' : Rewound p' p'') : Rewound p p'' :=
  ⟨h'.length.trans h.length, h'.current⟩

/-- A change of a block that leaves its failures alone. -/
theorem sameChain_modifyBlock {f : MpBlock → MpBlock} (hf : ∀ b, (f b).failedTime = b.failedTime) :
    SameChain p (p.modifyBlock i f) := by
  refine ⟨List.ext_getElem? fun j => ?_, rfl⟩
  rw [MpPool.modifyBlock, List.getElem?_map, List.getElem?_map, List.getElem?_modify]
  split_ifs
  · cases p.blocks[j]? with
    | none => rfl
    | some b => exact congrArg some (hf b)
  · cases p.blocks[j]? <;> rfl

theorem cutPiece_chain {a : ℕ} (h : cutPiece p i size = some (p', a)) : SameChain p p' := by
  rw [cutPiece] at h
  cases hb : p.blocks[i]? with
  | none => simp [hb] at h
  | some b =>
    simp only [hb, Option.some.injEq, Prod.mk.injEq] at h
    obtain ⟨rfl, -⟩ := h
    refine ⟨(sameChain_modifyBlock ?_).failed, rfl⟩
    exact fun _ => rfl

/-- **What a request for a piece leaves of the chain**: the blocks after the search, and maybe a
new one behind them. -/
theorem mallocAPiece_chain {newblock r : Option ℕ}
    (hstep : mallocAPiece p size newblock = some (p', r)) : ∃ bs current found new,
      findBlock (size + sizeofPiece) (p.blocks.drop (p.currentBlock.getD p.blocks.length))
        (p.currentBlock.getD p.blocks.length) p.currentBlock = (bs, current, found) ∧
      SameChain { p with
        blocks := p.blocks.take (p.currentBlock.getD p.blocks.length) ++ bs ++ new
        currentBlock := current } p' ∧ (current = none → new = []) := by
  rw [mallocAPiece] at hstep
  generalize p.currentBlock.getD p.blocks.length = start at hstep ⊢
  rcases hfind : findBlock (size + sizeofPiece) (p.blocks.drop start) start p.currentBlock with
    ⟨bs, current, found⟩
  rw [hfind] at hstep
  simp only at hstep
  -- the piece is cut from a block with enough space, or from a new one, if there is memory
  cases found with
  | some i =>
    obtain ⟨⟨q, a⟩, hcut, he⟩ := Option.map_eq_some_iff.mp hstep
    obtain ⟨rfl, -⟩ := Prod.mk.inj he
    refine ⟨bs, current, some i, [], rfl, ?_, fun _ => rfl⟩
    rw [List.append_nil]
    exact cutPiece_chain hcut
  | none =>
    cases newblock with
    | none =>
      simp only [mallocABlock, Option.bind_some, Option.some.injEq, Prod.mk.injEq] at hstep
      obtain ⟨rfl, -⟩ := hstep
      refine ⟨bs, current, none, [], rfl, ?_, fun _ => rfl⟩
      rw [List.append_nil]
      exact .refl _
    | some addr =>
      -- without a current block there is none to look for the end of the chain from
      cases current with
      | none => simp [mallocABlock] at hstep
      | some k =>
        simp only [mallocABlock, Option.bind_some] at hstep
        obtain ⟨⟨q, a⟩, hcut, he⟩ := Option.map_eq_some_iff.mp hstep
        obtain ⟨rfl, -⟩ := Prod.mk.inj he
        exact ⟨bs, some k, none, _, rfl, cutPiece_chain hcut, fun h => by simp at h⟩

theorem addRef_chain {a : ℕ} {d : ℤ} (hstep : p.addRef a d = some p') : SameChain p p' := by
  rw [MpPool.addRef] at hstep
  split at hstep
  · simp at hstep
  · split_ifs at hstep
    obtain rfl := Option.some.inj hstep
    exact sameChain_modifyBlock fun _ => rfl

theorem freeBucket_chain {a : ℕ} (hstep : p.freeBucket a = some p') : SameChain p p' := by
  rw [MpPool.freeBucket] at hstep
  split at hstep
  · obtain rfl := Option.some.inj hstep
    exact .refl p
  · split_ifs at hstep
    obtain rfl := Option.some.inj hstep
    exact .of_eq rfl rfl

theorem fillBucket_chain {a : ℕ} {memory r : Option ℕ}
    (hstep : fillBucket p a size memory = some (p', r)) : SameChain p p' := by
  cases memory with
  | none =>
    obtain ⟨q, hq, he⟩ := Option.map_eq_some_iff.mp hstep
    obtain ⟨rfl, -⟩ := Prod.mk.inj he
    exact addRef_chain hq
  | some start =>
    obtain ⟨rfl, -⟩ := Prod.mk.inj (Option.some.inj hstep)
    exact .of_eq rfl rfl

/-- A request for a bucket reuses a descriptor, or cuts a piece for a new one. -/
theorem mallocABucket_chain {supply : Supply} {r found last : Option ℕ}
    (hseek : Chain.seek p.nextBucket (fun a => (p.bucketAt a).startOfBucket.isNone) n p.firstBucket
      p.firstBucket = some (found, last))
    (hstep : mallocABucket n p size supply = some (p', r)) :
    (found ≠ none ∧ SameChain p p') ∨ (found = none ∧ ∃ p₁ r₁,
      mallocAPiece p sizeofBucket supply.block = some (p₁, r₁) ∧ SameChain p₁ p') := by
  rw [mallocABucket, hseek, Option.bind_some] at hstep
  cases found with
  | some bucket =>
    obtain ⟨p₁, hp₁, hstep⟩ := Option.bind_eq_some_iff.mp hstep
    exact Or.inl ⟨Option.some_ne_none _, (addRef_chain hp₁).trans (fillBucket_chain hstep)⟩
  | none =>
    obtain ⟨⟨p₁, r₁⟩, hp₁, hstep⟩ := Option.bind_eq_some_iff.mp hstep
    refine Or.inr ⟨rfl, p₁, r₁, hp₁, ?_⟩
    cases r₁ with
    | none =>
      obtain ⟨rfl, -⟩ := Prod.mk.inj (Option.some.inj hstep)
      exact .refl p₁
    | some bucket =>
      refine SameChain.trans ?_ (fillBucket_chain hstep)
      cases last <;> exact .of_eq rfl rfl

/-- One round of the loop of `clear_block`. -/
theorem clearStep_chain {s : MpPool × Option ℕ × Option ℕ} :
    (∀ s', clearStep i s = .inl s' → SameChain s.1 s'.1) ∧
      ∀ q, clearStep i s = .inr (some q) → SameChain s.1 q := by
  obtain ⟨p, cur, prev⟩ := s
  cases cur with
  | none =>
    refine ⟨fun s' hs => by simp [clearStep] at hs, fun q hs => ?_⟩
    exact Option.some.inj (Sum.inr.inj hs) ▸ .refl p
  | some bucket =>
    rw [clearStep]
    split_ifs
    · cases hfree : p.freeBucket bucket with
      | none => simp
      | some p₁ =>
        have hp₁ : SameChain p p₁ := freeBucket_chain hfree
        simp only
        split_ifs
        · exact ⟨fun s' hs => Sum.inl.inj hs ▸ hp₁.trans (.of_eq rfl rfl), by simp⟩
        · cases prev with
          | none => simp
          | some prevBucket =>
            exact ⟨fun s' hs => Sum.inl.inj hs ▸ hp₁.trans (.of_eq rfl rfl), by simp⟩
    · exact ⟨fun s' hs => Sum.inl.inj hs ▸ .refl p, by simp⟩

/-- Emptying a block sets the current block to the first one. -/
theorem clearBlock_chain (hstep : clearBlock n p i = some p') : SameChain p p' ∨ Rewound p p' := by
  rw [clearBlock] at hstep
  split at hstep
  · simp at hstep
  · split_ifs at hstep
    · exact Or.inl (Option.some.inj hstep ▸ .refl p)
    · obtain ⟨q, hq, rfl⟩ := Option.map_eq_some_iff.mp hstep
      obtain ⟨r, hr, hid⟩ := Option.bind_eq_some_iff.mp hq
      obtain rfl : r = some q := hid
      have hsame := @Loop.run_induct _ _ (clearStep i) (fun s => SameChain p s.1)
        (fun r => ∀ q, r = some q → SameChain p q)
        (fun s s' hs hround => hs.trans (clearStep_chain.1 s' hround))
        (fun s r hs hexit q hq => hs.trans (clearStep_chain.2 q (hq ▸ hexit))) n _ _ (.refl p) hr
        q rfl
      exact Or.inr (hsame.rewound ⟨List.length_modify _ _ _, rfl⟩)

theorem mpFree_chain {a : ℕ} (hstep : mpFree n p a = some p') : SameChain p p' ∨ Rewound p p' := by
  rw [mpFree] at hstep
  obtain ⟨found, -, hstep⟩ := Option.bind_eq_some_iff.mp hstep
  obtain ⟨⟨p₁, piece⟩, hp₁, hstep⟩ := Option.bind_eq_some_iff.mp hstep
  have h₁ : SameChain p p₁ := by
    cases found with
    | none =>
      obtain ⟨rfl, -⟩ := Prod.mk.inj (Option.some.inj hp₁)
      exact .refl p
    | some bucket =>
      obtain ⟨q, hfree, he⟩ := Option.map_eq_some_iff.mp hp₁
      obtain ⟨rfl, -⟩ := Prod.mk.inj he
      exact (freeBucket_chain hfree).trans (.of_eq rfl rfl)
  dsimp only at hstep
  split at hstep
  · exact Or.inl (Option.some.inj hstep ▸ h₁)
  · obtain ⟨p₂, href, hstep⟩ := Option.bind_eq_some_iff.mp hstep
    have h₂ := h₁.trans (addRef_chain href)
    split_ifs at hstep
    · exact (clearBlock_chain hstep).imp h₂.trans h₂.rewound
    · exact Or.inl (Option.some.inj hstep ▸ h₂)

/-- A reset sets the current block to the first one. -/
theorem mpResetPool_chain (hstep : mpResetPool n p = some p') : Rewound p p' := by
  obtain ⟨q, hq, rfl⟩ := Option.map_eq_some_iff.mp hstep
  obtain ⟨r, hr, hid⟩ := Option.bind_eq_some_iff.mp hq
  obtain rfl : r = some q := hid
  have hsame := @Loop.run_induct _ _ resetStep (fun s => SameChain p s.1)
    (fun r => ∀ q, r = some q → SameChain p q) ?_ ?_ n _ _ (.refl p) hr q rfl
  · exact hsame.rewound ⟨List.length_map _, rfl⟩
  · rintro ⟨q, cur⟩ s' h hs
    cases cur with
    | none => simp [resetStep] at hs
    | some bucket =>
      simp only [resetStep] at hs
      split at hs
      · simp at hs
      · rename_i q₁ hfree
        exact Sum.inl.inj hs ▸ h.trans (freeBucket_chain hfree)
  · rintro ⟨q, cur⟩ r h hs q' rfl
    cases cur with
    | none => exact Option.some.inj (Sum.inr.inj hs) ▸ h
    | some bucket =>
      simp only [resetStep] at hs
      split at hs <;> simp at hs

/-- **What a call does to the chain**: a request that searches for room does so once, and any
other call leaves the chain as it is, or has it searched from the start. -/
theorem step_chain {c c' : Client} {op : Op} (hstep : OpStep c op c') :
    (∃ size newblock p₁ r, (∀ m, Searches c op m ↔ m = size) ∧
      mallocAPiece c.pool size newblock = some (p₁, r) ∧ SameChain p₁ c'.pool) ∨
    ((∀ m, ¬Searches c op m) ∧ (SameChain c.pool c'.pool ∨ Rewound c.pool c'.pool)) := by
  cases hstep with
  | @malloc size supply pool addr hsound hret =>
    obtain ⟨n, hn⟩ := hret.exists_fuel
    -- nothing asked for, a piece, or a bucket
    rcases mpMalloc_cases hn with ⟨hzero, rfl, -⟩ | ⟨hpos, hsize, hn⟩ | ⟨hsize, hn⟩
    · refine Or.inr ⟨fun m hm => ?_, Or.inl (.refl _)⟩
      cases hm with
      | piece hpos => omega
      | bucket hlarge => omega
    · refine Or.inl ⟨size, supply.block, pool, addr, fun m => ⟨fun hm => ?_, ?_⟩, hn, .refl pool⟩
      · cases hm with
        | piece => rfl
        | bucket hlarge => exact absurd hsize (not_le.mpr hlarge)
      · rintro rfl
        exact .piece hpos hsize
    · obtain ⟨⟨found, last⟩, hseek, -⟩ := Option.bind_eq_some_iff.mp hn
      have hfound := (Loop.stable_run _ _).returns hseek
      -- a descriptor is used again, or a piece is cut for a new one
      rcases mallocABucket_chain hseek hn with ⟨hne, hsame⟩ | ⟨rfl, p₁, r₁, hp₁, hsame⟩
      · refine Or.inr ⟨fun m hm => ?_, Or.inl hsame⟩
        cases hm with
        | piece _ hle => exact absurd hle (not_le.mpr hsize)
        | bucket _ hnone => exact hne (congrArg Prod.fst (hfound.unique hnone))
      · refine Or.inl ⟨sizeofBucket, supply.block, p₁, r₁, fun m => ⟨fun hm => ?_, ?_⟩, hp₁, hsame⟩
        · cases hm with
          | piece _ hle => exact absurd hle (not_le.mpr hsize)
          | bucket => rfl
        · rintro rfl
          exact .bucket hsize hfound
  | free hlive hret =>
    obtain ⟨n, hn⟩ := hret.exists_fuel
    exact Or.inr ⟨fun m hm => (by cases hm), mpFree_chain hn⟩
  | reset hret =>
    obtain ⟨n, hn⟩ := hret.exists_fuel
    exact Or.inr ⟨fun m hm => (by cases hm), Or.inr (mpResetPool_chain hn)⟩

end

/-! ### The search for space -/

section

variable {p p' : MpPool} {i real size n : ℕ} {current : Option ℕ} {bs : List MpBlock}

/-- **What the search makes of the current block**: it is lost if and only if nothing is found
and the last block has failed too often. -/
theorem findBlock_current {N : ℕ} (hcur : ∃ k, current = some k ∧ k < N)
    (hlen : i + bs.length = N) :
    (∃ k, (findBlock real bs i current).2.1 = some k ∧ k < N) ↔
      (∃ b ∈ bs, real ≤ restBlockSpace b) ∨
        ∀ b, bs.getLast? = some b → b.failed.failedTime < mpMaxBlockFailTime := by
  -- only the last block can lead to no current block
  induction bs generalizing i current with
  | nil => exact iff_of_true hcur (Or.inr fun b hb => by simp at hb)
  | cons b bs ih =>
    by_cases hfit : restBlockSpace b ≥ real
    · rw [findBlock, if_pos hfit]
      exact iff_of_true hcur (Or.inl ⟨b, List.mem_cons_self, hfit⟩)
    · have hfound :
          (∃ c ∈ b :: bs, real ≤ restBlockSpace c) ↔ ∃ c ∈ bs, real ≤ restBlockSpace c := by
        simp [hfit]
      rw [hfound, findBlock, if_neg hfit]
      simp only
      cases bs with
      | nil =>
        simp only [findBlock, List.isEmpty_nil, if_true, List.getLast?_singleton]
        -- its fourth failure is the one after which nothing is left
        by_cases hfail : b.failed.failedTime ≥ mpMaxBlockFailTime
        · rw [if_pos hfail]
          refine iff_of_false (by simp) ?_
          rintro (⟨c, hc, -⟩ | hlast)
          · cases hc
          · exact absurd (hlast b rfl) (not_lt.mpr hfail)
        · rw [if_neg hfail]
          refine iff_of_true hcur (Or.inr fun c hc => ?_)
          obtain rfl := Option.some.inj hc
          exact not_le.mp hfail
      | cons c bs =>
        rw [List.getLast?_cons_cons]
        refine ih ?_ (by simpa [Nat.add_assoc, Nat.add_comm] using hlen)
        rw [List.length_cons, List.length_cons] at hlen
        split_ifs with hfail hempty
        · simp at hempty
        · exact ⟨i + 1, rfl, by omega⟩
        · exact hcur

/-- The search leads to blocks only. -/
theorem findBlock_lt {N k : ℕ} (hcur : ∀ k, current = some k → k < N)
    (hlen : i + bs.length = N) (h : (findBlock real bs i current).2.1 = some k) : k < N := by
  induction bs generalizing i current with
  | nil => exact hcur k h
  | cons b bs ih =>
    by_cases hfit : restBlockSpace b ≥ real
    · rw [findBlock, if_pos hfit] at h
      exact hcur k h
    · rw [findBlock, if_neg hfit] at h
      rw [List.length_cons] at hlen
      refine @ih (i + 1) _ (fun j hj => ?_) (by omega) h
      split_ifs at hj with hfail hempty
      · obtain rfl := Option.some.inj hj
        have hpos : 0 < bs.length := by simpa [List.length_pos_iff] using hempty
        omega
      · exact hcur j hj

/-- The search keeps the number of blocks. -/
theorem findBlock_length : (findBlock real bs i current).1.length = bs.length := by
  obtain ⟨bs', current', found, he, hsame, -⟩ := @findBlock_spec real i current bs
  rw [he]
  exact hsame.length_eq.symm

theorem cutPiece_isSome (h : i < p.blocks.length) : (cutPiece p i size).isSome := by
  rw [cutPiece, List.getElem?_eq_getElem h]
  rfl

/-- The search from a block of the pool leads to blocks of the pool only. -/
theorem findBlock_drop_lt {start k : ℕ} (hlt : start < p.blocks.length)
    (h : (findBlock real (p.blocks.drop start) start (some start)).2.1 = some k) :
    k < p.blocks.length := by
  refine findBlock_lt (fun j hj => ?_) (by rw [List.length_drop]; omega) h
  obtain rfl := Option.some.inj hj
  exact hlt

theorem SameChain.currentLive_iff (h : SameChain p p') : p'.CurrentLive ↔ p.CurrentLive := by
  rw [MpPool.CurrentLive, MpPool.CurrentLive, h.length, h.current]

/-- The first block is there. -/
theorem Rewound.currentLive (h : Rewound p p') (hlive : p.CurrentLive) : p'.CurrentLive := by
  obtain ⟨i, -, hlt⟩ := hlive
  exact ⟨0, h.current, by rw [h.length]; omega⟩

/-- What the condition on the tail says about the search. -/
theorem tailSpared_iff {start : ℕ} (hstart : p.currentBlock = some start)
    (hlt : start < p.blocks.length) : p.TailSpared size ↔
      ∃ k, (findBlock (size + sizeofPiece) (p.blocks.drop start) start (some start)).2.1 = some k ∧
        k < p.blocks.length := by
  have hlast : (p.blocks.drop start).getLast? = p.blocks.getLast? := by
    rw [List.getLast?_drop, if_neg (by omega)]
  rw [findBlock_current ⟨start, rfl, hlt⟩ (by rw [List.length_drop]; omega), hlast]
  constructor
  · exact fun hs => hs start hstart
  · intro hs j hj
    obtain rfl := Option.some.inj (hstart.symm.trans hj)
    exact hs

/-- **A request for a piece** loses the current block exactly where the tail is not spared. -/
theorem mallocAPiece_currentLive_iff {newblock r : Option ℕ} (h : p.CurrentLive)
    (hstep : mallocAPiece p size newblock = some (p', r)) :
    p.TailSpared size ↔ p'.CurrentLive := by
  obtain ⟨start, hstart, hlt⟩ := h
  obtain ⟨bs, current, found, new, hfind, hsame, hnew⟩ := mallocAPiece_chain hstep
  rw [hstart, Option.getD_some] at hfind hsame
  have hlength : bs.length = (p.blocks.drop start).length := by
    rw [← @findBlock_length start (size + sizeofPiece) (some start) (p.blocks.drop start), hfind]
  have hcount : (p.blocks.take start ++ bs ++ new).length = p.blocks.length + new.length := by
    rw [List.length_append, List.length_append, hlength, List.length_take, List.length_drop]
    omega
  rw [tailSpared_iff hstart hlt, hsame.currentLive_iff, MpPool.CurrentLive, hcount, hfind]
  cases current with
  | none => simp
  | some k =>
    have hk : k < p.blocks.length := findBlock_drop_lt hlt (by rw [hfind])
    exact iff_of_true ⟨k, rfl, hk⟩ ⟨k, rfl, Nat.lt_add_right _ hk⟩

/-- **A request with memory for a new block** is served exactly where the tail is spared. -/
theorem mallocAPiece_isSome_iff {addr : ℕ} (h : p.CurrentLive) :
    (mallocAPiece p size (some addr)).isSome ↔ p.TailSpared size := by
  obtain ⟨start, hstart, hlt⟩ := h
  rw [tailSpared_iff hstart hlt, mallocAPiece, hstart, Option.getD_some]
  have hcurrent := @findBlock_current start (size + sizeofPiece) (some start)
    (p.blocks.drop start) p.blocks.length ⟨start, rfl, hlt⟩ (by rw [List.length_drop]; omega)
  obtain ⟨bs, current, found, hfind, hsame, hfound⟩ :=
    @findBlock_spec (size + sizeofPiece) start (some start) (p.blocks.drop start)
  rw [hfind] at hcurrent ⊢
  have hlength : (p.blocks.take start ++ bs).length = p.blocks.length := by
    rw [List.length_append, ← hsame.length_eq, List.length_take, List.length_drop]
    omega
  cases found with
  | some i =>
    obtain ⟨k, b, rfl, hb, hreal⟩ := hfound i rfl
    have hlt' : start + k < p.blocks.length := by
      have := (List.getElem?_eq_some_iff.mp hb).1
      rw [List.length_drop] at this
      omega
    refine iff_of_true ?_ (hcurrent.mpr (Or.inl ⟨b, List.mem_of_getElem? hb, hreal⟩))
    simpa using cutPiece_isSome (hlength.symm ▸ hlt')
  | none =>
    cases current with
    | none => exact iff_of_false (by simp [mallocABlock]) (by simp)
    | some k =>
      refine iff_of_true ?_ ⟨k, rfl, findBlock_drop_lt hlt (by rw [hfind])⟩
      simpa [mallocABlock] using cutPiece_isSome (by simp)

/-- **One call** loses the current block exactly where it needs room that is not there and the
last block has failed too often. -/
theorem step_currentLive_iff {c c' : Client} {op : Op} (h : c.pool.CurrentLive)
    (hstep : OpStep c op c') : SparesTail c op ↔ c'.pool.CurrentLive := by
  rcases step_chain hstep with ⟨size, newblock, p₁, r, hsearch, hmalloc, hsame⟩ | ⟨hnone, hchain⟩
  · rw [hsame.currentLive_iff, ← mallocAPiece_currentLive_iff h hmalloc]
    constructor
    · exact fun hs => hs size ((hsearch size).mpr rfl)
    · intro hs m hm
      rwa [(hsearch m).mp hm]
  · refine iff_of_true (fun m hm => absurd hm (hnone m)) ?_
    rcases hchain with hsame | hrewound
    · exact hsame.currentLive_iff.mpr h
    · exact hrewound.currentLive h

/-- **The current block stays a block of the pool** over exactly the runs whose calls spare the
tail, and after such a run a request with memory for a new block is served exactly where it
spares the tail. -/
theorem run_currentLive_iff {autoClear : Bool} {memory : Option ℕ} {pieceBlock : ℕ → Option ℕ}
    {bucketAt : ℕ → MpBucket} {ops : List Op} {c : Client}
    (hpool : mpCreatePool size autoClear memory pieceBlock bucketAt = some p) :
    (Runs.Run (Runs.guard SparesTail OpStep) ⟨p, []⟩ ops c ↔
      Runs.Run (Runs.keeping (fun c => c.pool.CurrentLive) OpStep) ⟨p, []⟩ ops c) ∧
      (Runs.Run (Runs.guard SparesTail OpStep) ⟨p, []⟩ ops c → ∀ size addr,
        (mallocAPiece c.pool size (some addr)).isSome ↔ c.pool.TailSpared size) := by
  have h₀ : p.CurrentLive := by
    obtain ⟨-, hcurrent, -, -, -, addr, hblocks⟩ := mpCreatePool_spec hpool
    refine ⟨0, hcurrent, ?_⟩
    rw [hblocks]
    exact Nat.one_pos
  refine ⟨@Runs.run_guard_iff _ _ _ _ _ _ _ (fun c : Client => c.pool.CurrentLive)
    (fun _ => True) trivial h₀ (fun _ _ _ _ _ => trivial)
    fun _ _ _ _ h hs => step_currentLive_iff h hs, ?_⟩
  intro hrun size addr
  exact mallocAPiece_isSome_iff (@Runs.Run.invariant _ _ _ _ _ _
    (fun c : Client => c.pool.CurrentLive) hrun h₀
    fun _ _ _ h hs => (step_currentLive_iff h hs.2).mp hs.1)

end

/-! ### A pool without memory for a second block -/

/-- The sample pool after `n` requests that found no room and no memory. -/
def sampleFailed (n : ℤ) : MpPool :=
  { samplePool with
    blocks := [⟨1032, 1064, 1192, n, 0, []⟩]
    currentBlock := if n < 4 then some 0 else none }

/-- A request without memory for 128 bytes, which are too many with their header. -/
theorem opStep_noSupply {n : ℤ} {p' : MpPool}
    (hstep : mallocAPiece (sampleFailed n) 128 none = some (p', none)) :
    OpStep ⟨sampleFailed n, []⟩ (.malloc 128 noSupply) ⟨p', []⟩ :=
  @opStep_malloc ⟨sampleFailed n, []⟩ 128 noSupply p' none
    ⟨fun _ ha => by simp [noSupply] at ha, fun _ ha => by simp [noSupply] at ha⟩
    (show 128 ≤ 128 by decide) (by decide) hstep

/-- A request for a piece that spares the tail of a pool with these blocks. -/
theorem spares_sampleBlocks {blocks : List MpBlock} {current : ℕ} {header : ℕ → Option ℕ}
    {live : List (ℕ × ℕ)} {b : MpBlock} (size : ℕ) (supply : Supply)
    (hlast : blocks.getLast? = some b) (h : b.failed.failedTime < mpMaxBlockFailTime) :
    SparesTail ⟨sampleBlocks blocks current header, live⟩ (.malloc size supply) := by
  intro m _ i _
  refine Or.inr fun b' hb => ?_
  obtain rfl := Option.some.inj (hlast.symm.trans hb)
  exact h

/-- A request that finds neither room nor memory spares the tail, and the next one, for which there
is memory, is served from a new block. -/
theorem run_currentLive_iff_sample : ∃ c,
    Runs.Run (Runs.keeping (fun c => c.pool.CurrentLive) OpStep) ⟨samplePool, []⟩
      [.malloc 100 noSupply, .malloc 100 noSupply, .malloc 100 (blockSupply 2032)] c ∧
      c.live = [(2072, 100), (1072, 100)] ∧
      ((mallocAPiece c.pool 100 (some 3032)).isSome ↔ c.pool.TailSpared 100) := by
  have h₀ : Runs.Run (Runs.guard SparesTail OpStep) ⟨samplePool, []⟩ []
      ⟨sampleBlocks [⟨1032, 1064, 1192, 0, 0, []⟩] 0 (sampleHeader 0), []⟩ := .nil
  have h₁ := h₀.snoc ⟨spares_sampleBlocks 100 noSupply rfl (by decide), @opStep_sampleBlocks _
    [sampleBlock 0 0] 0 _ (sampleHeader 1) (some 1072) _ 100 noSupply (by decide) (by decide) rfl
    (by nofun) rfl⟩
  have h₂ := h₁.snoc ⟨spares_sampleBlocks 100 noSupply rfl (by decide), @opStep_sampleBlocks _
    [sampleBlock 0 1] 0 _ (sampleHeader 1) none _ 100 noSupply (by decide) (by decide) rfl
    (by nofun) rfl⟩
  have h₃ := h₂.snoc ⟨spares_sampleBlocks 100 (blockSupply 2032) rfl (by decide),
    @opStep_sampleBlocks _ [sampleBlock 0 2, sampleBlock 1 0] 0 _ (sampleHeader 2) (some 2072) _
      100 (blockSupply 2032) (by decide) (by decide) rfl
      (fun addr haddr => by obtain rfl := Option.some.inj haddr; decide) rfl⟩
  obtain ⟨hiff, hserved⟩ := run_currentLive_iff mpCreatePool_samplePool
  exact ⟨_, hiff.mp h₃, rfl, hserved h₃ 100 3032⟩

/-- **The fourth one loses the current block**: it is null, and a fifth request that gets
memory has nowhere to start its walk to the tail. -/
theorem not_currentLive_sample : ∃ c,
    Runs.Run OpStep ⟨samplePool, []⟩ (List.replicate 4 (.malloc 128 noSupply)) c ∧
      ¬c.pool.CurrentLive ∧ mallocAPiece c.pool 100 (some 2000) = none := by
  have hrun := (((Runs.Run.nil.snoc (@opStep_noSupply 0 _ rfl)).snoc
    (@opStep_noSupply 1 _ rfl)).snoc (@opStep_noSupply 2 _ rfl)).snoc (@opStep_noSupply 3 _ rfl)
  refine ⟨⟨sampleFailed 4, []⟩, hrun, ?_, rfl⟩
  rintro ⟨i, hi, -⟩
  exact absurd hi (by simp [sampleFailed])

end MemPool

end BackendStudy
