import BackendStudy.MemPool.Blocks

/-!
# Allocations inside of the blocks

A client that asks for pieces only, and frees what it holds, keeps pieces that lie in their
blocks and do not meet (`BackendStudy.MemPool.PiecesInPlace`). The invariant behind it counts:
every block has as many references as the client holds pieces in it
(`BackendStudy.MemPool.Held`), so a block that is emptied holds none.

All this rests on the size of the piece, with its header, being at most the size of a block.
`mp_malloc` compares the size without the header, so for sizes close to the size of a block
it cuts a piece that reaches over the end of a new block.
-/

namespace BackendStudy

namespace MemPool

/-- **The pieces of a client lie in their blocks**: header and data between the header and
the end of the block, no two pieces of a block meeting, and no block filled beyond its end. -/
structure PiecesInPlace (c : Client) : Prop where
  inside : ∀ x ∈ c.live, ∃ i b, c.pool.pieceBlock x.1 = some i ∧ c.pool.blocks[i]? = some b ∧
    b.addr + sizeofBlock + sizeofPiece ≤ x.1 ∧ x.1 + x.2 ≤ b.endOfBlock
  disjoint : c.live.Pairwise fun x y => c.pool.pieceBlock x.1 = c.pool.pieceBlock y.1 →
    Apart (x.1 - sizeofPiece) (sizeofPiece + x.2) (y.1 - sizeofPiece) (sizeofPiece + y.2)
  rest : ∀ b ∈ c.pool.blocks, b.startOfRest ≤ b.endOfBlock

/-- A call that asks for a piece, or no allocation. -/
def AsksPiece (c : Client) : Op → Prop
  | .malloc size _ => size ≤ c.pool.blockSize
  | _ => True

/-- A request for a piece that fits into a block with its header, or for which there is no
memory for a new block. -/
def Fits (c : Client) : Op → Prop
  | .malloc size supply => size + sizeofPiece ≤ c.pool.blockSize ∨ supply.block = none
  | _ => True

/-- **A client of pieces**: it holds pieces of the blocks, and every block counts them. -/
structure Held (c : Client) : Prop where
  laid : Laid c.pool
  noBucket : c.pool.firstBucket = none
  live : ∀ x ∈ c.live, ∃ i, c.pool.Piece i x
  nodup : (c.live.map Prod.fst).Nodup
  ref : ∀ j, c.pool.ref j = c.live.countP fun x => c.pool.pieceBlock x.1 = some j

section

variable {c : Client} {p p' : MpPool}

theorem Held.piecesInPlace (h : Held c) : PiecesInPlace c := by
  refine ⟨fun x hx => ?_, ?_, fun b hb => ?_⟩
  · obtain ⟨i, b, hb, hxb⟩ := h.live x hx
    have hl := h.laid.block i b hb
    have hw := hl.within x hxb
    exact ⟨i, b, hl.header x hxb, hb, hw.1, hw.2.trans hl.high⟩
  · have hne : c.live.Pairwise fun x y => x.1 ≠ y.1 := List.pairwise_map.mp h.nodup
    refine hne.imp_of_mem fun {x y} hx hy hxy hblock => ?_
    obtain ⟨i, hi⟩ := h.live x hx
    obtain ⟨j, hj⟩ := h.live y hy
    obtain rfl : i = j := by
      rw [h.laid.header hi, h.laid.header hj] at hblock
      exact Option.some.inj hblock
    exact h.laid.piece_apart hi hj fun he => hxy (congrArg Prod.fst he)
  · obtain ⟨i, hi⟩ := List.mem_iff_getElem?.mp hb
    exact (h.laid.block i b hi).high

/-- Pieces that stay keep their block. -/
theorem countP_congr_of_piece {l : List (ℕ × ℕ)} (h : Laid p) (h' : Laid p')
    (hl : ∀ x ∈ l, ∃ i, p.Piece i x ∧ p'.Piece i x) (j : ℕ) :
    l.countP (fun x => p'.pieceBlock x.1 = some j) =
      l.countP fun x => p.pieceBlock x.1 = some j := by
  refine List.countP_congr fun x hx => ?_
  obtain ⟨i, hi, hi'⟩ := hl x hx
  rw [h.header hi, h'.header hi']

/-- **A request for a piece.** -/
theorem Held.malloc {size : ℕ} {newblock r : Option ℕ} (h : Held c)
    (hfit : size + sizeofPiece ≤ c.pool.blockSize ∨ newblock = none)
    (hsound : ∀ a, newblock = some a → c.pool.Unused a (sizeofBlock + c.pool.blockSize))
    (hstep : mallocAPiece c.pool size newblock = some (p', r)) :
    Held ⟨p', (r.map (·, size)).toList ++ c.live⟩ := by
  rcases mallocAPiece_spec h.laid hfit hsound hstep with ⟨rfl, hp'⟩ | ⟨i, a, rfl, hp'⟩
  · have hlive : ∀ x ∈ c.live, ∃ i, c.pool.Piece i x ∧ p'.Piece i x := by
      intro x hx
      obtain ⟨i, hi⟩ := h.live x hx
      exact ⟨i, hi, (hp'.piece i x).mpr hi⟩
    refine ⟨hp'.laid, hp'.same.firstBucket.trans h.noBucket, fun x hx => ?_, h.nodup, fun j => ?_⟩
    · obtain ⟨i, -, hi⟩ := hlive x hx
      exact ⟨i, hi⟩
    · rw [hp'.ref, h.ref]
      exact congrArg Nat.cast (countP_congr_of_piece h.laid hp'.laid hlive j).symm
  · have hlive : ∀ x ∈ c.live, ∃ i, c.pool.Piece i x ∧ p'.Piece i x := by
      intro x hx
      obtain ⟨j, hj⟩ := h.live x hx
      exact ⟨j, hj, (hp'.piece j x).mpr (Or.inl hj)⟩
    have hnew : p'.Piece i (a, size) := (hp'.piece i _).mpr (Or.inr ⟨rfl, rfl⟩)
    refine ⟨hp'.laid, hp'.same.firstBucket.trans h.noBucket, fun x hx => ?_, ?_, fun j => ?_⟩
    · rcases List.mem_cons.mp hx with rfl | hx
      · exact ⟨i, hnew⟩
      · obtain ⟨j, -, hj⟩ := hlive x hx
        exact ⟨j, hj⟩
    · refine List.nodup_cons.mpr ⟨fun hmem => ?_, h.nodup⟩
      obtain ⟨x, hx, he⟩ := List.mem_map.mp hmem
      obtain ⟨j, hj⟩ := h.live x hx
      exact hp'.fresh j x.2 ((show x = (a, x.2) from Prod.ext he rfl) ▸ hj)
    · have hcount := countP_congr_of_piece h.laid hp'.laid hlive j
      have hheader : p'.pieceBlock a = some i := hp'.laid.header hnew
      simp only [Option.map_some, Option.toList_some, List.singleton_append, List.countP_cons,
        hcount, hheader, hp'.ref, h.ref, Option.some.injEq, decide_eq_true_eq, eq_comm (a := i)]
      split_ifs <;> simp

/-- What a client holds besides one of its pieces. -/
theorem filter_live {l : List (ℕ × ℕ)} {a n : ℕ} (hmem : (a, n) ∈ l)
    (hnodup : (l.map Prod.fst).Nodup) :
    ∃ A B, l = A ++ (a, n) :: B ∧ l.filter (·.1 ≠ a) = A ++ B := by
  obtain ⟨A, B, rfl⟩ := List.append_of_mem hmem
  rw [List.map_append, List.map_cons] at hnodup
  have hA : ∀ x ∈ A, x.1 ≠ a := by
    intro x hx he
    exact (List.nodup_append.mp hnodup).2.2 x.1 (List.mem_map_of_mem hx) a (by simp) he
  have hB : ∀ x ∈ B, x.1 ≠ a := by
    intro x hx he
    exact (List.nodup_cons.mp (List.nodup_append.mp hnodup).2.1).1 (List.mem_map.mpr ⟨x, hx, he⟩)
  refine ⟨A, B, rfl, ?_⟩
  rw [List.filter_append, List.filter_cons_of_neg (by simp),
    List.filter_eq_self.mpr (by simpa using hA), List.filter_eq_self.mpr (by simpa using hB)]

/-- **A piece given back**, before its block may be emptied. -/
theorem Held.release {a n : ℕ} (h : Held c) (hmem : (a, n) ∈ c.live)
    (hstep : c.pool.addRef a (-1) = some p') : Held ⟨p', c.live.filter (·.1 ≠ a)⟩ := by
  obtain ⟨hlaid, hsame, hpiece, hheader, i, hi, href⟩ := addRef_spec h.laid hstep
  obtain ⟨A, B, hl, hfilter⟩ := filter_live hmem h.nodup
  refine ⟨hlaid, hsame.firstBucket.trans h.noBucket, fun x hx => ?_, ?_, fun j => ?_⟩
  · obtain ⟨j, hj⟩ := h.live x (List.mem_filter.mp hx).1
    exact ⟨j, (hpiece j x).mpr hj⟩
  · exact h.nodup.sublist (List.filter_sublist.map _)
  · have hcount := h.ref j
    rw [hl, List.countP_append, List.countP_cons] at hcount
    simp only [hi, Option.some.injEq, decide_eq_true_eq, eq_comm (a := i)] at hcount
    rw [href, hcount, hfilter, hheader, List.countP_append]
    split_ifs <;> omega

/-- `clear_block`, where there are no descriptors to unlink. -/
theorem clearBlock_eq {i n : ℕ} (hfirst : p.firstBucket = none)
    (hstep : clearBlock n p i = some p') : ∃ b, p.blocks[i]? = some b ∧
      (0 < b.refCounter ∧ p' = p ∨ b.refCounter ≤ 0 ∧
        p' = { p.modifyBlock i emptyBlock with currentBlock := some 0 }) := by
  rw [clearBlock] at hstep
  split at hstep
  · simp at hstep
  · rename_i b hb
    refine ⟨b, hb, ?_⟩
    split_ifs at hstep with href
    · exact Or.inl ⟨href, (Option.some.inj hstep).symm⟩
    · refine Or.inr ⟨not_lt.mp href, ?_⟩
      cases n with
      | zero => simp [Loop.run] at hstep
      | succ n =>
        have hrun : Loop.run (clearStep i) (n + 1) (p, none, none) = some (some p) :=
          Loop.run_succ_inr rfl n
        rw [hfirst, hrun] at hstep
        simpa using hstep.symm

/-- **A block without references is emptied**, and the client held nothing in it. -/
theorem Held.clear {i n : ℕ} (h : Held c) (hstep : clearBlock n c.pool i = some p') :
    Held ⟨p', c.live⟩ := by
  obtain ⟨b, hb, ⟨-, rfl⟩ | ⟨href, rfl⟩⟩ := clearBlock_eq h.noBucket hstep
  · exact h
  · have hnone : ∀ x ∈ c.live, ¬c.pool.pieceBlock x.1 = some i := by
      have hzero : c.live.countP (fun x => c.pool.pieceBlock x.1 = some i) = 0 := by
        have hcount := h.ref i
        rw [MpPool.ref, hb] at hcount
        simp only [Option.map_some, Option.getD_some] at hcount
        omega
      simpa using List.countP_eq_zero.mp hzero
    obtain ⟨hlaid, hpiece, href'⟩ := @emptyBlock_spec c.pool i h.laid (some 0)
    refine ⟨hlaid, h.noBucket, fun x hx => ?_, h.nodup, fun j => ?_⟩
    · obtain ⟨j, hj⟩ := h.live x hx
      refine ⟨j, (hpiece j x).mpr ⟨?_, hj⟩⟩
      rintro rfl
      exact hnone x hx (h.laid.header hj)
    · rw [href']
      split_ifs with hij
      · subst hij
        have hzero : c.live.countP (fun x => c.pool.pieceBlock x.1 = some j) = 0 :=
          List.countP_eq_zero.mpr (by simpa using hnone)
        exact congrArg Nat.cast hzero.symm
      · exact h.ref j

/-- There is no descriptor to find. -/
theorem Held.findBucketWithAddr_eq {a n : ℕ} {found : Option ℕ} (h : Held c)
    (hstep : findBucketWithAddr n c.pool a = some found) : found = none := by
  rw [findBucketWithAddr, h.noBucket] at hstep
  cases n with
  | zero => simp [Chain.seek, Loop.run] at hstep
  | succ n =>
    have hrun : Chain.seek c.pool.nextBucket (fun b => (c.pool.bucketAt b).startOfBucket == some a)
        (n + 1) none none = some (none, none) := Loop.run_succ_inr rfl n
    rw [hrun] at hstep
    exact (Option.some.inj hstep).symm

/-- **What a release does** where there are no descriptors: the block of the piece loses a
reference, and may then be emptied. -/
theorem Held.free_eq {a m n : ℕ} (h : Held c) (hmem : (a, m) ∈ c.live)
    (hstep : mpFree n c.pool a = some p') : ∃ i p₁, c.pool.pieceBlock a = some i ∧
      c.pool.addRef a (-1) = some p₁ ∧
        (if p₁.autoClear then clearBlock n p₁ i else some p₁) = some p' := by
  rw [mpFree] at hstep
  obtain ⟨found, hfound, hstep⟩ := Option.bind_eq_some_iff.mp hstep
  obtain rfl := h.findBucketWithAddr_eq hfound
  obtain ⟨i, hi⟩ := h.live (a, m) hmem
  simp only [Option.bind_some, h.laid.header hi] at hstep
  obtain ⟨p₁, href, hstep⟩ := Option.bind_eq_some_iff.mp hstep
  exact ⟨i, p₁, h.laid.header hi, href, hstep⟩

/-- **What a reset does** where there are no descriptors. -/
theorem mpResetPool_eq {n : ℕ} (hfirst : p.firstBucket = none)
    (hstep : mpResetPool n p = some p') : p' = { p with
      firstBucket := none, blocks := p.blocks.map emptyBlock, currentBlock := some 0 } := by
  cases n with
  | zero => simp [mpResetPool, Loop.run] at hstep
  | succ n =>
    have hrun : Loop.run resetStep (n + 1) (p, none) = some (some p) := Loop.run_succ_inr rfl n
    rw [mpResetPool, hfirst, hrun] at hstep
    simpa using hstep.symm

/-- **One call of a client of pieces.** -/
theorem Held.step {op : Op} {c' : Client} (h : Held c) (hasks : AsksPiece c op) (hfits : Fits c op)
    (hstep : OpStep c op c') : Held c' := by
  cases hstep with
  | @malloc size supply pool addr hsound hret =>
    obtain ⟨n, hn⟩ := hret.exists_fuel
    rcases mpMalloc_cases hn with ⟨-, rfl, rfl⟩ | ⟨-, -, hn⟩ | ⟨hsize, -⟩
    · exact h
    · exact h.malloc hfits hsound.block hn
    · exact absurd hasks (not_le.mpr hsize)
  | @free addr pool hlive hret =>
    obtain ⟨m, hm⟩ := hlive
    obtain ⟨n, hn⟩ := hret.exists_fuel
    obtain ⟨i, p₁, -, href, hn⟩ := h.free_eq hm hn
    have h₁ := h.release hm href
    split_ifs at hn
    · exact h₁.clear hn
    · obtain rfl := Option.some.inj hn
      exact h₁
  | @reset pool hret =>
    obtain ⟨n, hn⟩ := hret.exists_fuel
    obtain rfl := mpResetPool_eq h.noBucket hn
    obtain ⟨hlaid, -, href⟩ := emptyAll_spec h.laid none (some 0)
    exact ⟨hlaid, rfl, by simp, by simp, by simpa using href⟩

/-- A new pool. -/
theorem laid_mpCreatePool {size : ℕ} {autoClear : Bool} {memory : Option ℕ}
    {pieceBlock : ℕ → Option ℕ} {bucketAt : ℕ → MpBucket}
    (h : mpCreatePool size autoClear memory pieceBlock bucketAt = some p) :
    Laid p ∧ p.firstBucket = none ∧ p.heap = [] ∧ ∀ j, p.ref j = 0 := by
  obtain ⟨hsize, -, hfirst, -, hheap, addr, hblocks⟩ := mpCreatePool_spec h
  have honly : ∀ i b, p.blocks[i]? = some b → i = 0 ∧ b = initANewBlock p addr := by
    intro i b hb
    rw [hblocks] at hb
    cases i with
    | zero => exact ⟨rfl, (Option.some.inj hb).symm⟩
    | succ i => simp at hb
  refine ⟨⟨hsize.1, hsize.2, fun i b hb => ?_, fun i j b c hb hc hij => ?_⟩, hfirst, hheap,
    fun j => ?_⟩
  · obtain ⟨rfl, rfl⟩ := honly i b hb
    exact ⟨le_rfl, Nat.le_add_right _ _, rfl, by simp [initANewBlock], by simp [initANewBlock],
      by simp [initANewBlock]⟩
  · exact absurd ((honly i b hb).1.trans (honly j c hc).1.symm) hij
  · rw [MpPool.ref, hblocks]
    cases j <;> simp [initANewBlock]

/-- **The pieces of a client lie in their blocks and do not meet**, over every run in which
no piece is cut that is larger than a block with its header. -/
theorem run_piecesInPlace {size : ℕ} {autoClear : Bool} {memory : Option ℕ}
    {pieceBlock : ℕ → Option ℕ} {bucketAt : ℕ → MpBucket} {ops : List Op}
    (hpool : mpCreatePool size autoClear memory pieceBlock bucketAt = some p)
    (hrun : Runs.Run (Runs.guard (fun c op => AsksPiece c op ∧ Fits c op) OpStep) ⟨p, []⟩ ops c) :
    PiecesInPlace c := by
  obtain ⟨hlaid, hfirst, -, href⟩ := laid_mpCreatePool hpool
  have h₀ : Held ⟨p, []⟩ := ⟨hlaid, hfirst, by simp, by simp, by simpa using href⟩
  exact (hrun.invariant h₀ fun _ _ _ h hs => h.step hs.1.1 hs.1.2 hs.2).piecesInPlace

end

/-! ### Pieces in two blocks, and a piece that leaves its block -/

/-- A pool of blocks of 128 bytes at the address 1000. -/
def samplePool : MpPool where
  blockSize := 128
  blocks := [⟨1032, 1064, 1192, 0, 0, []⟩]
  currentBlock := some 0
  firstBucket := none
  autoClear := true
  pieceBlock := fun _ => none
  bucketAt := fun _ => ⟨none, false, none⟩
  heap := []

theorem mpCreatePool_samplePool : mpCreatePool 128 true (some 1000) (fun _ => none)
    (fun _ => ⟨none, false, none⟩) = some samplePool := rfl

/-- Memory for a block at the address 2000 and for a bucket at the address 9000. -/
def sampleSupply : Supply := ⟨some 2000, some 9000, ⟨none, false, none⟩⟩

theorem sound_sampleSupply (size : ℕ) : sampleSupply.Sound samplePool size := by
  refine ⟨fun a ha => ⟨fun b hb => ?_, by simp [samplePool]⟩,
    fun a ha => ⟨fun b hb => ?_, by simp [samplePool]⟩⟩
  · obtain rfl : a = 2000 := (Option.some.inj ha).symm
    obtain rfl : b = ⟨1032, 1064, 1192, 0, 0, []⟩ := by simpa [samplePool] using hb
    exact Or.inr (by decide)
  · obtain rfl : a = 9000 := (Option.some.inj ha).symm
    obtain rfl : b = ⟨1032, 1064, 1192, 0, 0, []⟩ := by simpa [samplePool] using hb
    exact Or.inr (by decide)

/-- A request for a piece, as a call. -/
theorem opStep_malloc {c : Client} {size : ℕ} {supply : Supply} {p' : MpPool} {a : Option ℕ}
    (hsound : supply.Sound c.pool size) (hsize : size ≤ c.pool.blockSize) (hpos : ¬size ≤ 0)
    (hstep : mallocAPiece c.pool size supply.block = some (p', a)) :
    OpStep c (.malloc size supply) ⟨p', (a.map (·, size)).toList ++ c.live⟩ := by
  refine .malloc hsound ((Loop.returns_pure (p', a)).congr fun n => ?_)
  rw [mpMalloc, if_neg hpos, if_pos hsize, hstep]

/-- The block `i` of a pool with a piece of 100 bytes in each block, after `n` failures. -/
def sampleBlock (i : ℕ) (n : ℤ) : MpBlock :=
  ⟨1032 + 1000 * i, 1172 + 1000 * i, 1192 + 1000 * i, n, 1, [(1072 + 1000 * i, 100)]⟩

/-- The headers of the pieces in the first `n` blocks. -/
def sampleHeader : ℕ → ℕ → Option ℕ
  | 0 => fun _ => none
  | n + 1 => Function.update (sampleHeader n) (1072 + 1000 * n) (some n)

/-- The sample pool with these blocks. -/
def sampleBlocks (blocks : List MpBlock) (current : ℕ) (header : ℕ → Option ℕ) : MpPool :=
  { samplePool with blocks := blocks, currentBlock := some current, pieceBlock := header }

/-- Surroundings without memory. -/
def noSupply : Supply := ⟨none, none, ⟨none, false, none⟩⟩

/-- Memory for a block. -/
def blockSupply (addr : ℕ) : Supply := ⟨some addr, none, ⟨none, false, none⟩⟩

/-- A request for a piece of a pool with these blocks. -/
theorem opStep_sampleBlocks {blocks blocks' : List MpBlock} {current : ℕ}
    {header header' : ℕ → Option ℕ} {a : Option ℕ} {live : List (ℕ × ℕ)} (size : ℕ)
    (supply : Supply) (hsize : size ≤ 128) (hpos : ¬size ≤ 0) (hnone : supply.bucket = none)
    (hsound : ∀ addr, supply.block = some addr → ∀ b ∈ blocks, b.addr + 160 ≤ addr)
    (hstep : mallocAPiece (sampleBlocks blocks 0 header) size supply.block =
      some (sampleBlocks blocks' current header', a)) :
    OpStep ⟨sampleBlocks blocks 0 header, live⟩ (.malloc size supply)
      ⟨sampleBlocks blocks' current header', (a.map (·, size)).toList ++ live⟩ := by
  refine @opStep_malloc ⟨sampleBlocks blocks 0 header, live⟩ size supply _ a ⟨?_, ?_⟩
    (show size ≤ 128 from hsize) hpos hstep
  · exact fun addr haddr => ⟨fun b hb => Or.inr (hsound addr haddr b hb), nofun⟩
  · intro addr haddr
    rw [hnone] at haddr
    cases haddr

/-- The piece at `a` of a pool with these blocks is freed. -/
theorem opStep_free_sampleBlocks {blocks blocks' : List MpBlock} {header : ℕ → Option ℕ}
    {live : List (ℕ × ℕ)} (a : ℕ) (hmem : ∃ size, (a, size) ∈ live)
    (hstep : ∀ n, mpFree (n + 1) (sampleBlocks blocks 0 header) a =
      some (sampleBlocks blocks' 0 header)) :
    OpStep ⟨sampleBlocks blocks 0 header, live⟩ (.free a)
      ⟨sampleBlocks blocks' 0 header, live.filter (·.1 ≠ a)⟩ := by
  refine .free hmem (Filter.eventually_atTop.mpr ⟨1, fun n hn => ?_⟩)
  obtain ⟨n, rfl⟩ : ∃ m, n = m + 1 := ⟨n - 1, by omega⟩
  exact hstep n

/-- The first block with two pieces. -/
def sampleFull : MpBlock := ⟨1032, 1192, 1192, 1, 2, [(1180, 12), (1072, 100)]⟩

/-- A piece that fits into a block with its header. -/
theorem fits_sampleBlocks {blocks : List MpBlock} {current : ℕ} {header : ℕ → Option ℕ}
    {live : List (ℕ × ℕ)} {supply : Supply} (size : ℕ) (h : size + sizeofPiece ≤ 128) :
    AsksPiece ⟨sampleBlocks blocks current header, live⟩ (.malloc size supply) ∧
      Fits ⟨sampleBlocks blocks current header, live⟩ (.malloc size supply) :=
  ⟨(Nat.le_add_right _ _).trans h, Or.inl h⟩

/-- Two pieces in the first block, and one in a second block. -/
theorem run_piecesInPlace_sample : ∃ c,
    Runs.Run (Runs.guard (fun c op => AsksPiece c op ∧ Fits c op) OpStep) ⟨samplePool, []⟩
      [.malloc 100 noSupply, .malloc 100 (blockSupply 2032), .malloc 12 noSupply] c ∧
      c.pool.blocks = [sampleFull, sampleBlock 1 0] ∧
      c.live = [(1180, 12), (2072, 100), (1072, 100)] ∧ PiecesInPlace c := by
  have h₀ : Runs.Run (Runs.guard (fun c op => AsksPiece c op ∧ Fits c op) OpStep)
      ⟨samplePool, []⟩ [] ⟨sampleBlocks [⟨1032, 1064, 1192, 0, 0, []⟩] 0 (sampleHeader 0), []⟩ :=
    .nil
  have h₁ := h₀.snoc ⟨fits_sampleBlocks 100 (by decide),
    @opStep_sampleBlocks _ [sampleBlock 0 0] 0 _ (sampleHeader 1) (some 1072) _ 100 noSupply
      (by decide) (by decide) rfl (by nofun) rfl⟩
  have h₂ := h₁.snoc ⟨fits_sampleBlocks 100 (by decide),
    @opStep_sampleBlocks _ [sampleBlock 0 1, sampleBlock 1 0] 0 _ (sampleHeader 2) (some 2072) _
      100 (blockSupply 2032) (by decide) (by decide) rfl
      (fun addr haddr => by obtain rfl := Option.some.inj haddr; decide) rfl⟩
  have h₃ := h₂.snoc ⟨fits_sampleBlocks 12 (by decide),
    @opStep_sampleBlocks _ [sampleFull, sampleBlock 1 0] 0 _
      (Function.update (sampleHeader 2) 1180 (some 0)) (some 1180) _ 12 noSupply (by decide)
      (by decide) rfl (by nofun) rfl⟩
  exact ⟨_, h₃, rfl, rfl, run_piecesInPlace mpCreatePool_samplePool h₃⟩

/-- **A piece of 128 bytes leaves its block**: it does not fit into the first block, and is
cut from a new one all the same. -/
theorem not_piecesInPlace_sample : ∃ c,
    Runs.Run (Runs.guard AsksPiece OpStep) ⟨samplePool, []⟩ [.malloc 128 sampleSupply] c ∧
      ¬PiecesInPlace c := by
  have hsome : (mallocAPiece samplePool 128 (some 2000)).map (fun r => r.1.blocks[1]?) =
      some (some ⟨2000, 2168, 2160, 0, 1, [(2040, 128)]⟩) := rfl
  obtain ⟨⟨p', a⟩, hp', hblock⟩ := Option.map_eq_some_iff.mp hsome
  have hasks : AsksPiece ⟨samplePool, []⟩ (.malloc 128 sampleSupply) :=
    show 128 ≤ 128 by decide
  have hrun : Runs.Run (Runs.guard AsksPiece OpStep) ⟨samplePool, []⟩
      ([] ++ [.malloc 128 sampleSupply]) _ :=
    Runs.Run.nil.snoc ⟨hasks, opStep_malloc (sound_sampleSupply 128) hasks (by decide) hp'⟩
  refine ⟨_, hrun, fun h => ?_⟩
  exact absurd (h.rest _ (List.mem_of_getElem? hblock)) (by decide)

end MemPool

end BackendStudy
