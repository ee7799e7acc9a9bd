import BackendStudy.MemPool.Current

/-!
# The blocks that are passed over

The search for space starts at the current block, and passes over the blocks in front of it. It
is to pass over blocks that have failed four times only
(`BackendStudy.MemPool.MpPool.SkipsExhausted`). But a search that fails in several blocks moves the
current block behind the last one of them that has failed four times, and the ones in front of
that one may have failed less: emptying a block resets its failures, and those of the blocks
behind it stay.

So a block is passed over too early exactly when a search fails in it and in a block behind
it, of which the second one has failed three times before and the first one has not
(`BackendStudy.MemPool.run_skipsExhausted_iff`), as in a pool of two blocks of which the first one
is emptied (`BackendStudy.MemPool.not_skipsExhausted_sample`). The number of failures is an `int`,
and becomes negative after `2147483647`; such a block has not failed three times either. What is
written behind a block is taken to hit nothing of the pool, as for the current block.
-/

namespace BackendStudy

namespace MemPool

/-- The block has failed too often. -/
def MpBlock.Exhausted (b : MpBlock) : Prop := mpMaxBlockFailTime ≤ b.failedTime

/-- The block will have failed too often when it fails once more. -/
def MpBlock.LastTry (b : MpBlock) : Prop := mpMaxBlockFailTime ≤ b.failed.failedTime

/-- The blocks in front of the current one, or all of them if it is null, have failed too
often. -/
def Skips (bs : List MpBlock) (current : Option ℕ) : Prop :=
  ∀ b ∈ bs.take (current.getD bs.length), b.Exhausted

/-- **Only blocks that have failed too often are passed over.** -/
def MpPool.SkipsExhausted (p : MpPool) : Prop := Skips p.blocks p.currentBlock

instance (b : MpBlock) : Decidable b.LastTry := inferInstanceAs (Decidable (_ ≤ _))

/-- Among the blocks that a search for room for a piece fails in, none that will have failed too
often stands behind one that will not. -/
def MpPool.FailsInOrder (p : MpPool) (size : ℕ) : Prop :=
  ((p.blocks.drop (p.currentBlock.getD p.blocks.length)).takeWhile
    fun b => restBlockSpace b < size + sizeofPiece).Pairwise fun b c => c.LastTry → b.LastTry

instance (p : MpPool) (size : ℕ) : Decidable (p.FailsInOrder size) :=
  inferInstanceAs (Decidable (List.Pairwise _ _))

/-- The condition on the calls. -/
def SearchesInOrder (c : Client) (op : Op) : Prop :=
  ∀ size, Searches c op size → c.pool.FailsInOrder size

/-- The current block, if it is not null, is one of the blocks. -/
structure MpPool.CurrentIn (p : MpPool) : Prop where
  pos : 0 < p.blocks.length
  lt : ∀ k, p.currentBlock = some k → k < p.blocks.length

section

variable {p p' : MpPool} {i k real size : ℕ} {current : Option ℕ} {bs pre : List MpBlock}

/-! ### The search for space -/

/-- A search that has failed in `b` for the last time goes on from behind it. -/
theorem skips_of_lastTry {b : MpBlock} {v : List MpBlock} (hb : b.LastTry) :
    ((∀ c ∈ pre ++ [b.failed], c.Exhausted) ∧
        v.Pairwise fun b c => c.LastTry → b.LastTry) ↔
      (∀ c ∈ pre.take k, c.Exhausted) ∧ ((∃ c ∈ b :: v, c.LastTry) → ∀ c ∈ pre, c.Exhausted) ∧
        (b :: v).Pairwise fun b c => c.LastTry → b.LastTry := by
  constructor
  · rintro ⟨hall, hpair⟩
    have hpre : ∀ c ∈ pre, c.Exhausted := fun c hc => hall c (List.mem_append_left _ hc)
    exact ⟨fun c hc => hpre c (List.mem_of_mem_take hc), fun _ => hpre,
      List.pairwise_cons.mpr ⟨fun _ _ _ => hb, hpair⟩⟩
  · rintro ⟨-, hpre, hpair⟩
    refine ⟨fun c hc => ?_, (List.pairwise_cons.mp hpair).2⟩
    rcases List.mem_append.mp hc with hc | hc
    · exact hpre ⟨b, List.mem_cons_self, hb⟩ c hc
    · obtain rfl := List.mem_singleton.mp hc
      exact hb

/-- A search that may fail in `b` once more is not to fail behind it for the last time. -/
theorem skips_of_not_lastTry {b : MpBlock} {v : List MpBlock} (hb : ¬b.LastTry)
    (hk : k ≤ pre.length) :
    ((∀ c ∈ (pre ++ [b.failed]).take k, c.Exhausted) ∧
        ((∃ c ∈ v, c.LastTry) →
          ∀ c ∈ pre ++ [b.failed], c.Exhausted) ∧
        v.Pairwise fun b c => c.LastTry → b.LastTry) ↔
      (∀ c ∈ pre.take k, c.Exhausted) ∧ ((∃ c ∈ b :: v, c.LastTry) → ∀ c ∈ pre, c.Exhausted) ∧
        (b :: v).Pairwise fun b c => c.LastTry → b.LastTry := by
  rw [List.take_append_of_le_length hk]
  constructor
  · rintro ⟨htake, hpre, hpair⟩
    have hno : ∀ c ∈ v, ¬c.LastTry := fun c hc hlast =>
      hb (hpre ⟨c, hc, hlast⟩ _ (List.mem_append_right _ List.mem_cons_self))
    refine ⟨htake, ?_, List.pairwise_cons.mpr ⟨fun c hc hlast => absurd hlast (hno c hc), hpair⟩⟩
    rintro ⟨c, hc, hlast⟩
    rcases List.mem_cons.mp hc with rfl | hc
    · exact absurd hlast hb
    · exact absurd hlast (hno c hc)
  · rintro ⟨htake, -, hpair⟩
    obtain ⟨hfirst, hpair⟩ := List.pairwise_cons.mp hpair
    refine ⟨htake, ?_, hpair⟩
    rintro ⟨c, hc, hlast⟩
    exact absurd (hfirst c hc hlast) hb

/-- **What a search passes over**, from the place behind `pre` on: the blocks in front of the
current block, and all in front of a block that has failed for the last time. -/
theorem findBlock_skips (hi : pre.length = i) (hk : k ≤ i) :
    Skips (pre ++ (findBlock real bs i (some k)).1) (findBlock real bs i (some k)).2.1 ↔
      (∀ b ∈ pre.take k, b.Exhausted) ∧
        ((∃ c ∈ bs.takeWhile fun b => restBlockSpace b < real, c.LastTry) →
          ∀ b ∈ pre, b.Exhausted) ∧
        (bs.takeWhile fun b => restBlockSpace b < real).Pairwise
          fun b c => c.LastTry → b.LastTry := by
  -- along the chain: what stands before the current block must be exhausted
  induction bs generalizing pre i k with
  | nil =>
    rw [findBlock, List.append_nil, Skips, Option.getD_some, List.takeWhile_nil]
    simp
  | cons b bs ih =>
    by_cases hfit : restBlockSpace b ≥ real
    · rw [findBlock, if_pos hfit, List.takeWhile_cons_of_neg (by simpa using hfit), Skips,
        Option.getD_some, List.take_append_of_le_length (by omega)]
      simp
    · rw [findBlock, if_neg hfit, List.takeWhile_cons_of_pos (by simpa using hfit)]
      simp only
      have hpre : (pre ++ [b.failed]).length = i + 1 := by
        rw [List.length_append, hi]
        rfl
      -- a last try moves the current block behind it, and all that is before it is passed over
      by_cases hb : b.LastTry
      · have hcond : b.failed.failedTime ≥ mpMaxBlockFailTime := hb
        rw [if_pos hcond, ← skips_of_lastTry hb]
        cases bs with
        | nil =>
          rw [List.isEmpty_nil, if_pos rfl, findBlock, Skips, Option.getD_none, List.take_length,
            List.takeWhile_nil]
          simp
        | cons c bs =>
          have hrec := ih hpre (le_refl (i + 1))
          rw [List.append_assoc, List.singleton_append] at hrec
          rw [List.isEmpty_cons, if_neg Bool.false_ne_true, hrec,
            List.take_of_length_le (le_of_eq hpre)]
          constructor
          · exact fun h => ⟨h.1, h.2.2⟩
          · exact fun h => ⟨h.1, fun _ => h.1, h.2⟩
      · have hrec := ih hpre (Nat.le_succ_of_le hk)
        rw [List.append_assoc, List.singleton_append] at hrec
        have hcond : ¬b.failed.failedTime ≥ mpMaxBlockFailTime := hb
        rw [if_neg hcond, ← skips_of_not_lastTry hb (hi ▸ hk), hrec]

theorem SameChain.skips_iff (h : SameChain p p') : p'.SkipsExhausted ↔ p.SkipsExhausted := by
  have hmap : ∀ q : MpPool, q.SkipsExhausted ↔
      ∀ n ∈ (q.blocks.map MpBlock.failedTime).take (q.currentBlock.getD q.blocks.length),
        mpMaxBlockFailTime ≤ n := by
    intro q
    rw [← List.map_take, List.forall_mem_map]
    rfl
  rw [hmap, hmap, h.failed, h.current, h.length]

theorem SameChain.currentIn (h : SameChain p p') (hin : p.CurrentIn) : p'.CurrentIn :=
  ⟨by rw [h.length]; exact hin.pos, by rw [h.length, h.current]; exact hin.lt⟩

/-- Nothing is in front of the first block. -/
theorem Rewound.skips (h : Rewound p p') : p'.SkipsExhausted := by
  intro b hb
  rw [h.current, Option.getD_some, List.take_zero] at hb
  cases hb

theorem Rewound.currentIn (h : Rewound p p') (hin : p.CurrentIn) : p'.CurrentIn := by
  refine ⟨by rw [h.length]; exact hin.pos, fun k hk => ?_⟩
  obtain rfl := Option.some.inj (hk.symm.trans h.current)
  rw [h.length]
  exact hin.pos

/-- A search that starts in the pool keeps the current block there, and passes over a block too
early exactly where it does not fail in order. -/
theorem findBlock_start_skips {bs : List MpBlock} {found : Option ℕ} (hin : p.CurrentIn)
    (h : p.SkipsExhausted)
    (hfind : findBlock (size + sizeofPiece) (p.blocks.drop (p.currentBlock.getD p.blocks.length))
      (p.currentBlock.getD p.blocks.length) p.currentBlock = (bs, current, found)) :
    (p.FailsInOrder size ↔
        Skips (p.blocks.take (p.currentBlock.getD p.blocks.length) ++ bs) current) ∧
      ∀ k, current = some k → k < p.blocks.length := by
  rw [MpPool.FailsInOrder]
  rw [MpPool.SkipsExhausted, Skips] at h
  cases hcur : p.currentBlock with
  | none =>
    -- there is nothing to search
    rw [hcur, Option.getD_none, List.drop_length, findBlock] at hfind
    obtain ⟨rfl, rfl, -⟩ : [] = bs ∧ none = current ∧ none = found := by simpa using hfind
    rw [hcur, Option.getD_none, List.take_length] at h
    rw [Option.getD_none, List.drop_length, List.take_length, List.append_nil, Skips,
      Option.getD_none, List.take_length]
    exact ⟨iff_of_true List.Pairwise.nil h, fun k hk => by simp at hk⟩
  | some start =>
    have hlt : start < p.blocks.length := hin.lt start hcur
    rw [hcur, Option.getD_some] at hfind h
    have htake : (p.blocks.take start).length = start := by
      rw [List.length_take]
      omega
    have hskips := @findBlock_skips start start (size + sizeofPiece) (p.blocks.drop start) _ htake
      (le_refl start)
    rw [hfind, List.take_of_length_le (le_of_eq htake)] at hskips
    rw [Option.getD_some, hskips]
    refine ⟨?_, fun k hk => findBlock_drop_lt hlt (by rw [hfind]; exact hk)⟩
    exact ⟨fun hpair => ⟨h, fun _ => h, hpair⟩, fun hall => hall.2.2⟩

/-- **A request for a piece** keeps the current block in the pool, and passes over a block too
early exactly where it does not fail in order. -/
theorem mallocAPiece_skips_iff {newblock r : Option ℕ} (hin : p.CurrentIn)
    (h : p.SkipsExhausted) (hstep : mallocAPiece p size newblock = some (p', r)) :
    (p.FailsInOrder size ↔ p'.SkipsExhausted) ∧ p'.CurrentIn := by
  obtain ⟨bs, current, found, new, hfind, hsame, hnew⟩ := mallocAPiece_chain hstep
  obtain ⟨hiff, hlt⟩ := findBlock_start_skips hin h hfind
  have hsearch := congrArg (fun x => x.1.length) hfind
  have hpos := hin.pos
  generalize hstart : p.currentBlock.getD p.blocks.length = start at *
  have hlength : (p.blocks.take start ++ bs).length = p.blocks.length := by
    have hbs : bs.length = (p.blocks.drop start).length := hsearch.symm.trans findBlock_length
    rw [List.length_append, hbs, List.length_take, List.length_drop]
    omega
  rw [hsame.skips_iff, hiff]
  refine ⟨?_, hsame.currentIn ⟨?_, fun k hk => ?_⟩⟩
  · -- a new block stands behind the current one
    rw [MpPool.SkipsExhausted, Skips, Skips]
    cases current with
    | none => rw [hnew rfl, List.append_nil]
    | some k =>
      have htake :
          (p.blocks.take start ++ bs ++ new).take k = (p.blocks.take start ++ bs).take k := by
        refine List.take_append_of_le_length ?_
        have hk := hlt k rfl
        omega
      simp only [Option.getD_some, htake]
  · rw [List.length_append, hlength]
    omega
  · have hk' := hlt k hk
    rw [List.length_append, hlength]
    omega

/-! ### Runs -/

/-- **One call** passes over a block too early exactly where its search does not fail in order. -/
theorem step_skips_iff {c c' : Client} {op : Op} (hin : c.pool.CurrentIn)
    (h : c.pool.SkipsExhausted) (hstep : OpStep c op c') :
    (SearchesInOrder c op ↔ c'.pool.SkipsExhausted) ∧ c'.pool.CurrentIn := by
  rcases step_chain hstep with ⟨size, newblock, p₁, r, hsearch, hmalloc, hsame⟩ | ⟨hnone, hchain⟩
  · obtain ⟨hiff, hin₁⟩ := mallocAPiece_skips_iff hin h hmalloc
    rw [hsame.skips_iff, ← hiff]
    refine ⟨⟨fun hs => hs size ((hsearch size).mpr rfl), fun hs m hm => ?_⟩, hsame.currentIn hin₁⟩
    rwa [(hsearch m).mp hm]
  · have hmet : SearchesInOrder c op := fun m hm => absurd hm (hnone m)
    rcases hchain with hsame | hrewound
    · exact ⟨iff_of_true hmet (hsame.skips_iff.mpr h), hsame.currentIn hin⟩
    · exact ⟨iff_of_true hmet hrewound.skips, hrewound.currentIn hin⟩

/-- **The runs that pass over no block too early** are those in which every search fails in order:
never in a block that has failed less than three times and in one behind it that has failed
more. -/
theorem run_skipsExhausted_iff {autoClear : Bool} {memory : Option ℕ} {pieceBlock : ℕ → Option ℕ}
    {bucketAt : ℕ → MpBucket} {ops : List Op} {c : Client}
    (hpool : mpCreatePool size autoClear memory pieceBlock bucketAt = some p) :
    Runs.Run (Runs.guard SearchesInOrder OpStep) ⟨p, []⟩ ops c ↔
      Runs.Run (Runs.keeping (fun c => c.pool.SkipsExhausted) OpStep) ⟨p, []⟩ ops c := by
  have h₀ : p.CurrentIn ∧ p.SkipsExhausted := by
    obtain ⟨-, hcurrent, -, -, -, addr, hblocks⟩ := mpCreatePool_spec hpool
    have hone : p.blocks.length = 1 := by
      rw [hblocks]
      rfl
    refine ⟨⟨by omega, fun k hk => ?_⟩, ?_⟩
    · obtain rfl := Option.some.inj (hcurrent.symm.trans hk)
      omega
    · -- no block precedes the only one
      rw [MpPool.SkipsExhausted, hcurrent]
      exact fun b hb => absurd hb List.not_mem_nil
  refine @Runs.run_guard_iff_steps _ _ OpStep _ c ops SearchesInOrder
    (fun _ _ c' => c'.pool.SkipsExhausted)
    (fun c => c.pool.CurrentIn ∧ c.pool.SkipsExhausted) h₀ ?_ ?_
  · intro c op c' h hok hs
    obtain ⟨hiff, hin⟩ := step_skips_iff h.1 h.2 hs
    exact ⟨hin, hiff.mp hok⟩
  · exact fun c op c' h hs => (step_skips_iff h.1 h.2 hs).1

end

/-! ### Blocks that are filled -/

/-- A request for 100 bytes that fails in order. -/
theorem ordered_sampleBlocks {blocks : List MpBlock} {current : ℕ} {header : ℕ → Option ℕ}
    {live : List (ℕ × ℕ)} {supply : Supply}
    (h : (sampleBlocks blocks current header).FailsInOrder 100) :
    SearchesInOrder ⟨sampleBlocks blocks current header, live⟩ (.malloc 100 supply) := by
  intro m hm
  cases hm with
  | piece => exact h
  | bucket hlarge => exact absurd (show 128 < 100 from hlarge) (by decide)

/-- Three requests without memory that fail in both blocks: the first block has then failed four
times, and is passed over. -/
theorem run_skipsExhausted_iff_sample : ∃ c,
    Runs.Run (Runs.keeping (fun c => c.pool.SkipsExhausted) OpStep) ⟨samplePool, []⟩
      [.malloc 100 noSupply, .malloc 100 (blockSupply 2032), .malloc 100 noSupply,
        .malloc 100 noSupply, .malloc 100 noSupply] c ∧
      c.pool.currentBlock = some 1 ∧ c.pool.blocks.map MpBlock.failedTime = [4, 3] := by
  have h₀ : Runs.Run (Runs.guard SearchesInOrder OpStep) ⟨samplePool, []⟩ []
      ⟨sampleBlocks [⟨1032, 1064, 1192, 0, 0, []⟩] 0 (sampleHeader 0), []⟩ := .nil
  have h₁ := h₀.snoc ⟨ordered_sampleBlocks (by decide), @opStep_sampleBlocks _ [sampleBlock 0 0]
    0 _ (sampleHeader 1) (some 1072) _ 100 noSupply (by decide) (by decide) rfl (by nofun) rfl⟩
  have h₂ := h₁.snoc ⟨ordered_sampleBlocks (by decide), @opStep_sampleBlocks _
    [sampleBlock 0 1, sampleBlock 1 0] 0 _ (sampleHeader 2) (some 2072) _ 100 (blockSupply 2032)
    (by decide) (by decide) rfl
    (fun addr haddr => by obtain rfl := Option.some.inj haddr; decide) rfl⟩
  have h₃ := h₂.snoc ⟨ordered_sampleBlocks (by decide), @opStep_sampleBlocks _
    [sampleBlock 0 2, sampleBlock 1 1] 0 _ (sampleHeader 2) none _ 100 noSupply
    (by decide) (by decide) rfl (by nofun) rfl⟩
  have h₄ := h₃.snoc ⟨ordered_sampleBlocks (by decide), @opStep_sampleBlocks _
    [sampleBlock 0 3, sampleBlock 1 2] 0 _ (sampleHeader 2) none _ 100 noSupply
    (by decide) (by decide) rfl (by nofun) rfl⟩
  have h₅ := h₄.snoc ⟨ordered_sampleBlocks (by decide), @opStep_sampleBlocks _
    [sampleBlock 0 4, sampleBlock 1 3] 1 _ (sampleHeader 2) none _ 100 noSupply
    (by decide) (by decide) rfl (by nofun) rfl⟩
  exact ⟨_, (run_skipsExhausted_iff mpCreatePool_samplePool).mp h₅, rfl, rfl⟩

/-! ### A block that is emptied -/

/-- A request for which there is no memory. -/
theorem opStep_failing {m n k m' n' k' : ℤ} {current : ℕ} {header : ℕ → Option ℕ}
    {live : List (ℕ × ℕ)}
    (hstep : mallocAPiece (sampleBlocks [sampleBlock 0 m, sampleBlock 1 n, sampleBlock 2 k] 0
      header) 100 none =
      some (sampleBlocks [sampleBlock 0 m', sampleBlock 1 n', sampleBlock 2 k'] current header,
        none)) :
    OpStep ⟨sampleBlocks [sampleBlock 0 m, sampleBlock 1 n, sampleBlock 2 k] 0 header, live⟩
      (.malloc 100 noSupply)
      ⟨sampleBlocks [sampleBlock 0 m', sampleBlock 1 n', sampleBlock 2 k'] current header, live⟩ :=
  opStep_sampleBlocks 100 noSupply (by decide) (by decide) rfl (by nofun) hstep

/-- **A block that is passed over after three failures**: the first block is emptied and filled
again, and the three requests that find no room after that come to four failures in the second
block. -/
theorem not_skipsExhausted_sample : ∃ c,
    Runs.Run OpStep ⟨samplePool, []⟩
      [.malloc 100 noSupply, .malloc 100 (blockSupply 2032), .malloc 100 (blockSupply 3032),
        .free 1072, .malloc 100 noSupply,
        .malloc 100 noSupply, .malloc 100 noSupply, .malloc 100 noSupply] c ∧
      c.pool.currentBlock = some 2 ∧ c.pool.blocks.map MpBlock.failedTime = [3, 4, 3] ∧
      ¬c.pool.SkipsExhausted := by
  have h₀ : Runs.Run OpStep ⟨samplePool, []⟩ []
      ⟨sampleBlocks [⟨1032, 1064, 1192, 0, 0, []⟩] 0 (sampleHeader 0), []⟩ := .nil
  have h₁ := h₀.snoc (@opStep_sampleBlocks _ [sampleBlock 0 0] 0 _ (sampleHeader 1) (some 1072) _
    100 noSupply (by decide) (by decide) rfl (by nofun) rfl)
  have h₂ := h₁.snoc (@opStep_sampleBlocks _ [sampleBlock 0 1, sampleBlock 1 0] 0 _
    (sampleHeader 2) (some 2072) _ 100 (blockSupply 2032) (by decide) (by decide) rfl
    (fun addr haddr => by obtain rfl := Option.some.inj haddr; decide) rfl)
  have h₃ := h₂.snoc (@opStep_sampleBlocks _ [sampleBlock 0 2, sampleBlock 1 1, sampleBlock 2 0] 0 _
    (sampleHeader 3) (some 3072) _ 100 (blockSupply 3032) (by decide) (by decide) rfl
    (fun addr haddr => by obtain rfl := Option.some.inj haddr; decide) rfl)
  have hfree : OpStep ⟨sampleBlocks [sampleBlock 0 2, sampleBlock 1 1, sampleBlock 2 0] 0
      (sampleHeader 3), [(3072, 100), (2072, 100), (1072, 100)]⟩ (.free 1072)
      ⟨sampleBlocks [⟨1032, 1064, 1192, 0, 0, []⟩, sampleBlock 1 1, sampleBlock 2 0] 0
        (sampleHeader 3), [(3072, 100), (2072, 100)]⟩ := by
    refine .free ⟨100, by decide⟩ (Filter.eventually_atTop.mpr ⟨1, fun n hn => ?_⟩)
    obtain ⟨n, rfl⟩ : ∃ m, n = m + 1 := ⟨n - 1, by omega⟩
    rfl
  have h₅ := (h₃.snoc hfree).snoc (@opStep_sampleBlocks _
    [sampleBlock 0 0, sampleBlock 1 1, sampleBlock 2 0] 0 _
    (Function.update (sampleHeader 3) 1072 (some 0)) (some 1072) _ 100 noSupply
    (by decide) (by decide) rfl (by nofun) rfl)
  have h₆ := h₅.snoc (@opStep_failing 0 1 0 1 2 1 0 _ _ rfl)
  have h₇ := h₆.snoc (@opStep_failing 1 2 1 2 3 2 0 _ _ rfl)
  have h₈ := h₇.snoc (@opStep_failing 2 3 2 3 4 3 2 _ _ rfl)
  refine ⟨_, h₈, rfl, rfl, fun hskips => ?_⟩
  have hfour : (4 : ℤ) ≤ 3 := hskips (sampleBlock 0 3) List.mem_cons_self
  exact absurd hfour (by decide)

end MemPool

end BackendStudy
