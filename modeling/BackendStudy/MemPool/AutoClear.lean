import BackendStudy.MemPool.Pieces

/-!
# Blocks that empty themselves

With `auto_clear` on, a client of pieces that fit into a block, served with memory whenever it
is needed, leaves nothing behind: a block counts the pieces that are live in it, it is emptied
only when there are none, and it is emptied then
(`BackendStudy.MemPool.run_clearedExactly`).

The invariant beyond the count (`BackendStudy.MemPool.AllUsed`) is that a block without
references is as new. The search for space never spoils this: an empty block has room for
every piece, so it is never one that has failed.
-/

namespace BackendStudy

namespace MemPool

/-- A block as new: all its space is free and it has not failed. -/
def MpBlock.Fresh (b : MpBlock) : Prop := b.startOfRest = b.addr + sizeofBlock ∧ b.failedTime = 0

/-- **Emptied exactly when nothing is live**: every block counts its live pieces, no live piece
has been cleared away, and when nothing is live all blocks are as new and the search for space
starts at the first. -/
structure ClearedExactly (c : Client) : Prop where
  count : ∀ (i : ℕ) (b : MpBlock), c.pool.blocks[i]? = some b →
    b.refCounter = c.live.countP fun x => c.pool.pieceBlock x.1 = some i
  kept : ∀ x ∈ c.live, ∃ i b, c.pool.pieceBlock x.1 = some i ∧ c.pool.blocks[i]? = some b ∧
    x ∈ b.pieces
  idle : c.live = [] → c.pool.currentBlock = some 0 ∧ ∀ b ∈ c.pool.blocks, b.Fresh

/-- A request for a piece that fits into a block, with memory for a new one. -/
def ServedPiece (c : Client) : Op → Prop
  | .malloc size supply => size + sizeofPiece ≤ c.pool.blockSize ∧ supply.block.isSome
  | _ => True

/-- **A block without references is as new.** -/
def AllUsed (bs : List MpBlock) : Prop :=
  ∀ b ∈ bs, 0 ≤ b.refCounter ∧ (b.refCounter = 0 → b.Fresh)

section

variable {p p' : MpPool} {bs bs' : List MpBlock} {i a size n : ℕ}

/-! ### Searching and cutting -/

/-- The search for space raises the number of failures of blocks that are too full only. -/
theorem findBlock_full {real : ℕ} {current current' found : Option ℕ}
    (h : findBlock real bs i current = (bs', current', found)) :
    List.Forall₂ (fun b b' => b' = b ∨ restBlockSpace b < real ∧ Retried b b') bs bs' := by
  induction bs generalizing i current bs' with
  | nil =>
    obtain ⟨rfl, -⟩ := Prod.mk.inj h
    exact .nil
  | cons b bs ih =>
    by_cases hfit : restBlockSpace b ≥ real
    · rw [findBlock, if_pos hfit] at h
      obtain ⟨rfl, -⟩ := Prod.mk.inj h
      exact List.forall₂_same.mpr fun b _ => Or.inl rfl
    · rw [findBlock, if_neg hfit] at h
      obtain ⟨rfl, he⟩ := Prod.mk.inj h
      obtain ⟨rfl, rfl⟩ := Prod.mk.inj he
      exact .cons (Or.inr ⟨not_le.mp hfit, _, rfl⟩) (ih rfl)

/-- A search for a piece that fits into an empty block keeps the blocks without references as
they are. -/
theorem AllUsed.search {real : ℕ} (h : AllUsed bs)
    (hroom : ∀ b ∈ bs, b.Fresh → real ≤ restBlockSpace b)
    (hsame : List.Forall₂ (fun b b' => b' = b ∨ restBlockSpace b < real ∧ Retried b b') bs bs') :
    AllUsed bs' ∧ bs'.map MpBlock.addr = bs.map MpBlock.addr := by
  induction hsame with
  | nil => exact ⟨h, rfl⟩
  | @cons b b' bs bs' hb _ ih =>
    obtain ⟨hbs', haddr⟩ := ih (fun c hc => h c (List.mem_cons_of_mem _ hc))
      fun c hc => hroom c (List.mem_cons_of_mem _ hc)
    obtain ⟨hnonneg, hzero⟩ := h b List.mem_cons_self
    rcases hb with rfl | ⟨hfull, k, rfl⟩
    · exact ⟨List.forall_mem_cons.mpr ⟨⟨hnonneg, hzero⟩, hbs'⟩, by simp [haddr]⟩
    · refine ⟨List.forall_mem_cons.mpr ⟨⟨hnonneg, fun hz => ?_⟩, hbs'⟩, by simp [haddr]⟩
      exact absurd (hroom b List.mem_cons_self (hzero hz)) (not_le.mpr hfull)

/-- A block of a list with one block changed. -/
theorem mem_modify {f : MpBlock → MpBlock} {b : MpBlock} (h : b ∈ bs.modify i f) :
    b ∈ bs ∨ ∃ c, bs[i]? = some c ∧ b = f c := by
  obtain ⟨j, hj⟩ := List.mem_iff_getElem?.mp h
  obtain ⟨c, hc, rfl⟩ := getElem?_modify_some hj
  split_ifs with hij
  · exact Or.inr ⟨c, hij ▸ hc, rfl⟩
  · exact Or.inl (List.mem_of_getElem? hc)

/-- A change of one block that keeps its address keeps the addresses. -/
theorem map_addr_modify {f : MpBlock → MpBlock} (hf : ∀ b, (f b).addr = b.addr) :
    (bs.modify i f).map MpBlock.addr = bs.map MpBlock.addr := by
  refine List.ext_getElem? fun j => ?_
  rw [List.getElem?_map, List.getElem?_map, List.getElem?_modify]
  cases bs[j]? with
  | none => rfl
  | some b =>
    change some _ = some _
    split_ifs
    · exact congrArg some (hf b)
    · rfl

/-- A block from which a piece is cut has a reference. -/
theorem AllUsed.cut (h : AllUsed p.blocks) (hstep : cutPiece p i size = some (p', a)) :
    AllUsed p'.blocks ∧ p'.blocks.map MpBlock.addr = p.blocks.map MpBlock.addr := by
  rw [cutPiece] at hstep
  cases hb : p.blocks[i]? with
  | none => simp [hb] at hstep
  | some b =>
    simp only [hb, Option.some.injEq, Prod.mk.injEq] at hstep
    obtain ⟨rfl, -⟩ := hstep
    refine ⟨fun c hc => ?_, map_addr_modify fun _ => rfl⟩
    rcases mem_modify hc with hc | ⟨b', hb', rfl⟩
    · exact h c hc
    · have hnonneg := (h b' (List.mem_of_getElem? hb')).1
      simp only
      exact ⟨by omega, fun hz => by omega⟩

/-- **A request for a piece that fits into an empty block**, with memory for a new one, is
served, and the chain of blocks only grows. -/
theorem AllUsed.malloc {addr : ℕ} {r : Option ℕ} (h : AllUsed p.blocks)
    (hroom : ∀ b ∈ p.blocks, b.Fresh → size + sizeofPiece ≤ restBlockSpace b)
    (hstep : mallocAPiece p size (some addr) = some (p', r)) :
    r ≠ none ∧ AllUsed p'.blocks ∧
      p.blocks.map MpBlock.addr <+: p'.blocks.map MpBlock.addr := by
  rw [mallocAPiece] at hstep
  generalize p.currentBlock.getD p.blocks.length = start at *
  rcases hfind : findBlock (size + sizeofPiece) (p.blocks.drop start) start p.currentBlock with
    ⟨bs, current, found⟩
  simp only [hfind] at hstep
  -- the blocks before the current one are not looked at, those from it on may fail once more
  have htake : List.Forall₂ (fun b b' => b' = b ∨ restBlockSpace b < size + sizeofPiece ∧
      Retried b b') (p.blocks.take start) (p.blocks.take start) :=
    List.forall₂_same.mpr fun b _ => Or.inl rfl
  have happend : List.Forall₂ (fun b b' => b' = b ∨ restBlockSpace b < size + sizeofPiece ∧
      Retried b b') (p.blocks.take start ++ p.blocks.drop start) (p.blocks.take start ++ bs) :=
    List.rel_append htake (findBlock_full hfind)
  rw [List.take_append_drop] at happend
  obtain ⟨h₁, haddr⟩ := h.search hroom happend
  cases found with
  | some i =>
    obtain ⟨⟨q, a⟩, hcut, he⟩ := Option.map_eq_some_iff.mp hstep
    obtain ⟨rfl, rfl⟩ := Prod.mk.inj he
    obtain ⟨hq, haddr'⟩ := AllUsed.cut h₁ hcut
    exact ⟨by simp, hq, (haddr'.trans haddr) ▸ List.prefix_rfl⟩
  | none =>
    cases current with
    | none => simp [mallocABlock] at hstep
    | some k =>
      simp only [mallocABlock, Option.bind_some] at hstep
      obtain ⟨⟨q, a⟩, hcut, he⟩ := Option.map_eq_some_iff.mp hstep
      obtain ⟨rfl, rfl⟩ := Prod.mk.inj he
      -- the new block is as new, and stands behind the others
      have h₂ : AllUsed (p.blocks.take start ++ bs ++ [initANewBlock p addr]) := by
        intro b hb
        rcases List.mem_append.mp hb with hb | hb
        · exact h₁ b hb
        · obtain rfl := List.mem_singleton.mp hb
          exact ⟨le_rfl, fun _ => ⟨rfl, rfl⟩⟩
      obtain ⟨hq, haddr'⟩ := AllUsed.cut h₂ hcut
      refine ⟨by simp, hq, ?_⟩
      rw [haddr', List.map_append, haddr]
      exact List.prefix_append _ _

/-- **A piece given back**, with its block emptied where that was the last reference. -/
theorem AllUsed.free {p₁ : MpPool} (h : AllUsed p.blocks) (hfirst : p.firstBucket = none)
    (hblock : p.pieceBlock a = some i) (href : p.addRef a (-1) = some p₁)
    (hclear : clearBlock n p₁ i = some p') :
    AllUsed p'.blocks ∧ p'.blocks.map MpBlock.addr = p.blocks.map MpBlock.addr := by
  rw [MpPool.addRef, hblock] at href
  simp only at href
  split_ifs at href with hlt
  obtain rfl := Option.some.inj href
  obtain ⟨b, hb, ⟨hpos, rfl⟩ | ⟨-, rfl⟩⟩ := clearBlock_eq (by exact hfirst) hclear
  · refine ⟨fun c hc => ?_, map_addr_modify fun _ => rfl⟩
    rcases mem_modify hc with hc | ⟨c₀, hc₀, rfl⟩
    · exact h c hc
    · obtain rfl : b = _ := Option.some.inj (hb.symm.trans (by simp [MpPool.modifyBlock, hc₀]; rfl))
      exact ⟨hpos.le, fun hz => absurd hz hpos.ne'⟩
  · simp only [MpPool.modifyBlock, List.modify_modify_eq]
    refine ⟨fun c hc => ?_, map_addr_modify fun _ => rfl⟩
    rcases mem_modify hc with hc | ⟨c₀, -, rfl⟩
    · exact h c hc
    · exact ⟨le_rfl, fun _ => ⟨rfl, rfl⟩⟩

/-- **The invariant of a client whose pool clears itself.** -/
structure SelfClearing (c : Client) : Prop where
  held : Held c
  autoClear : c.pool.autoClear = true
  allUsed : AllUsed c.pool.blocks
  idle : c.live = [] → c.pool.currentBlock = some 0

end

section

variable {c c' : Client} {p : MpPool}

theorem SelfClearing.clearedExactly (h : SelfClearing c) : ClearedExactly c := by
  have hcount : ∀ (i : ℕ) (b : MpBlock), c.pool.blocks[i]? = some b →
      b.refCounter = c.live.countP fun x => c.pool.pieceBlock x.1 = some i := by
    intro i b hb
    rw [← h.held.ref i, MpPool.ref, hb]
    rfl
  refine ⟨hcount, fun x hx => ?_, fun hempty => ⟨h.idle hempty, fun b hb => ?_⟩⟩
  · obtain ⟨i, b, hb, hxb⟩ := h.held.live x hx
    exact ⟨i, b, h.held.laid.header ⟨b, hb, hxb⟩, hb, hxb⟩
  · obtain ⟨i, hi⟩ := List.mem_iff_getElem?.mp hb
    refine (h.allUsed b hb).2 ?_
    rw [hcount i b hi, hempty]
    rfl

/-- An empty block has room for every piece that is asked for. -/
theorem Held.room {size : ℕ} (h : Held c) (hfit : size + sizeofPiece ≤ c.pool.blockSize) :
    ∀ b ∈ c.pool.blocks, b.Fresh → size + sizeofPiece ≤ restBlockSpace b := by
  intro b hb hfresh
  obtain ⟨i, hi⟩ := List.mem_iff_getElem?.mp hb
  have hl := h.laid.block i b hi
  have hend := hl.size
  rw [hl.restBlockSpace_eq h.laid.size_le, hfresh.1]
  omega

/-- **One call.** -/
theorem SelfClearing.step {op : Op} (h : SelfClearing c) (hserved : ServedPiece c op)
    (hstep : OpStep c op c') : SelfClearing c' ∧
      c.pool.blocks.map MpBlock.addr <+: c'.pool.blocks.map MpBlock.addr := by
  have hasks : AsksPiece c op := by
    cases op with
    | malloc size supply => exact (Nat.le_add_right _ _).trans hserved.1
    | free addr => trivial
    | reset => trivial
  have hfits : Fits c op := by
    cases op with
    | malloc size supply => exact Or.inl hserved.1
    | free addr => trivial
    | reset => trivial
  have hheld := h.held.step hasks hfits hstep
  cases hstep with
  | @malloc size supply pool addr hsound hret =>
    obtain ⟨hfit, hsome⟩ := hserved
    obtain ⟨n, hn⟩ := hret.exists_fuel
    rcases mpMalloc_cases hn with ⟨-, rfl, rfl⟩ | ⟨-, -, hn⟩ | ⟨hsize, -⟩
    · exact ⟨h, List.prefix_rfl⟩
    · obtain ⟨a, ha⟩ := Option.isSome_iff_exists.mp hsome
      rw [ha] at hn
      obtain ⟨hserved, hused, hprefix⟩ := h.allUsed.malloc (h.held.room hfit) hn
      have hauto : pool.autoClear = c.pool.autoClear := by
        rcases mallocAPiece_spec h.held.laid (Or.inl hfit) (ha ▸ hsound.block) hn with
          ⟨-, hpool⟩ | ⟨i, b, -, hpool⟩
        · exact hpool.same.autoClear
        · exact hpool.same.autoClear
      refine ⟨⟨hheld, hauto.trans h.autoClear, hused, fun hempty => ?_⟩, hprefix⟩
      · obtain ⟨r, hr⟩ := Option.ne_none_iff_exists'.mp hserved
        simp [hr] at hempty
    · exact absurd ((Nat.le_add_right _ _).trans hfit) (not_le.mpr hsize)
  | @free addr pool hlive hret =>
    obtain ⟨m, hm⟩ := hlive
    obtain ⟨n, hn⟩ := hret.exists_fuel
    obtain ⟨i, p₁, hblock, href, hclear⟩ := h.held.free_eq hm hn
    obtain ⟨-, hsame, -⟩ := addRef_spec h.held.laid href
    rw [if_pos (hsame.autoClear.trans h.autoClear)] at hclear
    obtain ⟨hused, haddr⟩ := h.allUsed.free h.held.noBucket hblock href hclear
    have hfirst := hsame.firstBucket.trans h.held.noBucket
    obtain ⟨b, hb, ⟨hpos, rfl⟩ | ⟨-, rfl⟩⟩ := clearBlock_eq hfirst hclear
    · refine ⟨⟨hheld, hsame.autoClear.trans h.autoClear, hused, fun hempty => ?_⟩,
        haddr ▸ List.prefix_rfl⟩
      -- a block that keeps a reference holds a live piece
      have hcount := hheld.ref i
      rw [hempty, MpPool.ref, hb] at hcount
      exact absurd hcount hpos.ne'
    · exact ⟨⟨hheld, hsame.autoClear.trans h.autoClear, hused, fun _ => rfl⟩,
        haddr ▸ List.prefix_rfl⟩
  | @reset pool hret =>
    obtain ⟨n, hn⟩ := hret.exists_fuel
    obtain rfl := mpResetPool_eq h.held.noBucket hn
    refine ⟨⟨hheld, h.autoClear, fun b hb => ?_, fun _ => rfl⟩, ?_⟩
    · obtain ⟨b₀, -, rfl⟩ := List.mem_map.mp hb
      exact ⟨le_rfl, fun _ => ⟨rfl, rfl⟩⟩
    · simp only [List.map_map]
      exact List.prefix_rfl

/-- A new pool. -/
theorem selfClearing_mpCreatePool {size : ℕ} {memory : Option ℕ} {pieceBlock : ℕ → Option ℕ}
    {bucketAt : ℕ → MpBucket} (h : mpCreatePool size true memory pieceBlock bucketAt = some p) :
    SelfClearing ⟨p, []⟩ := by
  obtain ⟨hlaid, hfirst, -, href⟩ := laid_mpCreatePool h
  have hheld : Held ⟨p, []⟩ := ⟨hlaid, hfirst, by simp, by simp, by simpa using href⟩
  obtain ⟨-, hcurrent, -, hauto, -, addr, hblocks⟩ := mpCreatePool_spec h
  refine ⟨hheld, hauto, fun b hb => ?_, fun _ => hcurrent⟩
  obtain rfl := List.mem_singleton.mp (hblocks ▸ hb)
  exact ⟨le_rfl, fun _ => ⟨rfl, rfl⟩⟩

/-- **A pool that clears itself is cleared exactly**, over every run of requests for pieces that
fit into a block, with memory whenever it is needed; and no block is ever lost from the chain. -/
theorem run_clearedExactly {size : ℕ} {memory : Option ℕ} {pieceBlock : ℕ → Option ℕ}
    {bucketAt : ℕ → MpBucket} {ops : List Op}
    (hpool : mpCreatePool size true memory pieceBlock bucketAt = some p)
    (hrun : Runs.Run (Runs.guard ServedPiece OpStep) ⟨p, []⟩ ops c) :
    ClearedExactly c ∧ ∀ ops' c', Runs.Run (Runs.guard ServedPiece OpStep) c ops' c' →
      c.pool.blocks.map MpBlock.addr <+: c'.pool.blocks.map MpBlock.addr := by
  have h : SelfClearing c := hrun.invariant (selfClearing_mpCreatePool hpool)
    fun _ _ _ h hs => (h.step hs.1 hs.2).1
  refine ⟨h.clearedExactly, fun ops' c' hrun' => ?_⟩
  have hinv := @Runs.Run.invariant _ _ _ _ _ _ (fun d : Client => SelfClearing d ∧
    c.pool.blocks.map MpBlock.addr <+: d.pool.blocks.map MpBlock.addr) hrun'
    ⟨h, List.prefix_rfl⟩ fun _ _ _ h hs => by
      obtain ⟨h', hprefix⟩ := h.1.step hs.1 hs.2
      exact ⟨h', h.2.trans hprefix⟩
  exact hinv.2

/-- A request for a piece that fits, with memory for a block. -/
theorem served_sampleBlocks {blocks : List MpBlock} {current : ℕ} {header : ℕ → Option ℕ}
    {live : List (ℕ × ℕ)} (size addr : ℕ) (h : size + sizeofPiece ≤ 128) :
    ServedPiece ⟨sampleBlocks blocks current header, live⟩ (.malloc size (blockSupply addr)) :=
  ⟨h, rfl⟩

theorem served_free {c : Client} (a : ℕ) : ServedPiece c (.free a) := trivial

/-- Three pieces in two blocks: when those of the first block are freed it is emptied, with the
piece of the second one live, and when that one is freed as well both blocks are as new. -/
theorem run_clearedExactly_sample : ∃ c c',
    Runs.Run (Runs.guard ServedPiece OpStep) ⟨samplePool, []⟩
      [.malloc 100 (blockSupply 2032), .malloc 100 (blockSupply 2032),
        .malloc 12 (blockSupply 3032), .free 1072, .free 1180] c ∧
      c.pool.blocks = [⟨1032, 1064, 1192, 0, 0, []⟩, sampleBlock 1 0] ∧ c.live = [(2072, 100)] ∧
      ClearedExactly c ∧ Runs.Run (Runs.guard ServedPiece OpStep) c [.free 2072] c' ∧
      c'.pool.blocks = [⟨1032, 1064, 1192, 0, 0, []⟩, ⟨2032, 2064, 2192, 0, 0, []⟩] ∧
      c'.live = [] ∧ ClearedExactly c' ∧
      c.pool.blocks.map MpBlock.addr <+: c'.pool.blocks.map MpBlock.addr := by
  have h₀ : Runs.Run (Runs.guard ServedPiece OpStep) ⟨samplePool, []⟩ []
      ⟨sampleBlocks [⟨1032, 1064, 1192, 0, 0, []⟩] 0 (sampleHeader 0), []⟩ := .nil
  have h₁ := h₀.snoc ⟨served_sampleBlocks 100 2032 (by decide),
    @opStep_sampleBlocks _ [sampleBlock 0 0] 0 _ (sampleHeader 1) (some 1072) _ 100 _ (by decide)
      (by decide) rfl (fun addr haddr => by obtain rfl := Option.some.inj haddr; decide) rfl⟩
  have h₂ := h₁.snoc ⟨served_sampleBlocks 100 2032 (by decide),
    @opStep_sampleBlocks _ [sampleBlock 0 1, sampleBlock 1 0] 0 _ (sampleHeader 2) (some 2072) _
      100 _ (by decide) (by decide) rfl
      (fun addr haddr => by obtain rfl := Option.some.inj haddr; decide) rfl⟩
  have h₃ := h₂.snoc ⟨served_sampleBlocks 12 3032 (by decide),
    @opStep_sampleBlocks _ [sampleFull, sampleBlock 1 0] 0 _
      (Function.update (sampleHeader 2) 1180 (some 0)) (some 1180) _ 12 _ (by decide) (by decide)
      rfl (fun addr haddr => by obtain rfl := Option.some.inj haddr; decide) rfl⟩
  have h₄ := h₃.snoc ⟨served_free 1072, @opStep_free_sampleBlocks _
    [⟨1032, 1192, 1192, 1, 1, [(1180, 12), (1072, 100)]⟩, sampleBlock 1 0] _ _ 1072
    ⟨100, by decide⟩ fun n => rfl⟩
  have h₅ := h₄.snoc ⟨served_free 1180, @opStep_free_sampleBlocks _
    [⟨1032, 1064, 1192, 0, 0, []⟩, sampleBlock 1 0] _ _ 1180 ⟨12, by decide⟩ fun n => rfl⟩
  obtain ⟨hcleared, hprefix⟩ := run_clearedExactly mpCreatePool_samplePool h₅
  have hlast := @opStep_free_sampleBlocks [⟨1032, 1064, 1192, 0, 0, []⟩, sampleBlock 1 0]
    [⟨1032, 1064, 1192, 0, 0, []⟩, ⟨2032, 2064, 2192, 0, 0, []⟩]
    (Function.update (sampleHeader 2) 1180 (some 0)) [(2072, 100)] 2072 ⟨100, by decide⟩
    fun n => rfl
  have h₆ := h₅.snoc ⟨served_free 2072, hlast⟩
  exact ⟨_, _, h₅, rfl, rfl, hcleared, .snoc .nil ⟨served_free 2072, hlast⟩, rfl, rfl,
    (run_clearedExactly mpCreatePool_samplePool h₆).1,
    hprefix _ _ (.snoc .nil ⟨served_free 2072, hlast⟩)⟩

end

end MemPool

end BackendStudy
