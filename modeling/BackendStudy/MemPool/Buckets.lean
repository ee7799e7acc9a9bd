import BackendStudy.MemPool.Pieces

/-!
# The chain of buckets

The descriptors of large allocations are linked through pieces of the blocks, so they come
and go with the blocks. The chain is well formed (`BackendStudy.MemPool.BucketsOk`) when it
ends, meets every descriptor once and each in a piece of its block, and when every bucket is
empty or an allocation that has not been freed.

`malloc_a_bucket` writes `still_in_use` of a new descriptor and nothing else before it links
it in. What `next` and `start_of_bucket` hold then is left from earlier users of the memory:
the chain goes on through the stale link, and when there is no memory for the bucket the stale
start stays. So the chain stays well formed as long as these bytes are null
(`BackendStudy.MemPool.CleanBytes`).
-/

namespace BackendStudy

namespace MemPool

open Chain

/-- **A well-formed chain of buckets.** -/
def BucketsOk (p : MpPool) : Prop :=
  ∃ as, Path p.nextBucket p.firstBucket as none ∧ as.Nodup ∧ ∀ a ∈ as,
    (∃ i b, p.pieceBlock a = some i ∧ p.blocks[i]? = some b ∧ (a, sizeofBucket) ∈ b.pieces) ∧
    ∀ s, (p.bucketAt a).startOfBucket = some s → ∃ n, (s, n) ∈ p.heap

/-- The descriptors that are linked, each in a piece. -/
structure Linked (p : MpPool) (as : List ℕ) : Prop where
  path : Path p.nextBucket p.firstBucket as none
  nodup : as.Nodup
  held : ∀ a ∈ as, ∃ i, p.Piece i (a, sizeofBucket)

/-- Descriptors whose buckets are empty or allocated, no two of them the same. -/
structure Owned (p : MpPool) (as : List ℕ) : Prop where
  start : ∀ a ∈ as, ∀ s, (p.bucketAt a).startOfBucket = some s → ∃ n, (s, n) ∈ p.heap
  distinct : ∀ a ∈ as, ∀ b ∈ as, ∀ s, (p.bucketAt a).startOfBucket = some s →
    (p.bucketAt b).startOfBucket = some s → a = b
  sizes : ∀ r ∈ p.heap, 0 < r.2

section

variable {p p' : MpPool} {as bs : List ℕ} {a i : ℕ}

theorem bucketsOk_of_linked (hlaid : Laid p) (h : Linked p as) (ho : Owned p as) :
    BucketsOk p := by
  refine ⟨as, h.path, h.nodup, fun a ha => ⟨?_, ho.start a ha⟩⟩
  obtain ⟨i, hi⟩ := h.held a ha
  obtain ⟨b, hb, hmem⟩ := hi
  exact ⟨i, b, hlaid.header ⟨b, hb, hmem⟩, hb, hmem⟩

/-- The chain reads the descriptors and the pieces only. -/
theorem Linked.congr (h : Linked p as) (hfirst : p'.firstBucket = p.firstBucket)
    (hnext : ∀ a ∈ as, p'.nextBucket a = p.nextBucket a)
    (hpiece : ∀ j x, p.Piece j x → p'.Piece j x) : Linked p' as := by
  refine ⟨hfirst ▸ h.path.congr hnext, h.nodup, fun a ha => ?_⟩
  obtain ⟨i, hi⟩ := h.held a ha
  exact ⟨i, hpiece i _ hi⟩

theorem Owned.congr (h : Owned p as)
    (hstart : ∀ a ∈ bs, a ∈ as ∧ (p'.bucketAt a).startOfBucket = (p.bucketAt a).startOfBucket)
    (hheap : p'.heap = p.heap) : Owned p' bs := by
  refine ⟨fun a ha s hs => ?_, fun a ha b hb s hsa hsb => ?_, hheap ▸ h.sizes⟩
  · obtain ⟨ha, he⟩ := hstart a ha
    rw [he] at hs
    exact hheap ▸ h.start a ha s hs
  · obtain ⟨ha, hea⟩ := hstart a ha
    obtain ⟨hb, heb⟩ := hstart b hb
    exact h.distinct a ha b hb s (hea ▸ hsa) (heb ▸ hsb)

/-- Fewer descriptors. -/
theorem Owned.mono (h : Owned p as) (hsub : ∀ a ∈ bs, a ∈ as) : Owned p bs :=
  h.congr (fun a ha => ⟨hsub a ha, rfl⟩) rfl

/-- **A bucket is freed** in its descriptor. -/
theorem Owned.freeBucket (h : Owned p as) (ha : a ∈ as) (hstep : p.freeBucket a = some p') :
    Owned p' as ∧ p'.blocks = p.blocks ∧ p'.pieceBlock = p.pieceBlock ∧
      p'.blockSize = p.blockSize ∧ p'.firstBucket = p.firstBucket ∧
      p'.nextBucket = p.nextBucket := by
  rw [MpPool.freeBucket] at hstep
  split at hstep
  · obtain rfl := Option.some.inj hstep
    exact ⟨h, rfl, rfl, rfl, rfl, rfl⟩
  -- the memory goes back to the system, and no other descriptor has it
  · rename_i s hs
    split_ifs at hstep with hmem
    obtain rfl := Option.some.inj hstep
    refine ⟨⟨fun b hb s' hs' => ?_, fun b hb c hc s' hsb hsc => ?_, fun r hr => ?_⟩, rfl, rfl, rfl,
      rfl, ?_⟩
    · by_cases hba : b = a
      · subst hba
        simp [MpPool.setBucket] at hs'
      · simp only [MpPool.setBucket, Function.update_of_ne hba] at hs'
        obtain ⟨n, hn⟩ := h.start b hb s' hs'
        refine ⟨n, List.mem_filter.mpr ⟨hn, ?_⟩⟩
        have hne : s' ≠ s := by
          rintro rfl
          exact hba (h.distinct b hb a ha s' hs' hs)
        simpa using hne
    · by_cases hba : b = a
      · subst hba
        simp [MpPool.setBucket] at hsb
      · by_cases hca : c = a
        · subst hca
          simp [MpPool.setBucket] at hsc
        · simp only [MpPool.setBucket, Function.update_of_ne hba] at hsb
          simp only [MpPool.setBucket, Function.update_of_ne hca] at hsc
          exact h.distinct b hb c hc s' hsb hsc
    · exact h.sizes r (List.mem_filter.mp hr).1
    · funext b
      by_cases hba : b = a
      · subst hba
        simp [MpPool.nextBucket, MpPool.setBucket]
      · simp [MpPool.nextBucket, MpPool.setBucket, Function.update_of_ne hba]

/-- The next pointer of one descriptor is written. -/
theorem nextBucket_setNext (next : Option ℕ) :
    (p.setNext a next).nextBucket = Function.update p.nextBucket a next := by
  funext b
  by_cases hba : b = a
  · subst hba
    simp [MpPool.nextBucket, MpPool.setNext, MpPool.setBucket]
  · simp [MpPool.nextBucket, MpPool.setNext, MpPool.setBucket, Function.update_of_ne hba]

theorem startOfBucket_setNext (next : Option ℕ) (b : ℕ) :
    ((p.setNext a next).bucketAt b).startOfBucket = (p.bucketAt b).startOfBucket := by
  by_cases hba : b = a
  · subst hba
    simp [MpPool.setNext, MpPool.setBucket]
  · simp [MpPool.setNext, MpPool.setBucket, Function.update_of_ne hba]

end

/-! ### Unlinking the descriptors of a block -/

/-- Inside of the loop of `clear_block`: the descriptors `K` have been passed and stay, the
descriptors `R` are to come. -/
structure Clearing (p : MpPool) (i : ℕ) (q : MpPool) (cur prev : Option ℕ) (K R : List ℕ) :
    Prop where
  linked : Linked q (K ++ R)
  owned : Owned q (K ++ R)
  rest : Path q.nextBucket cur R none
  prev : K ≠ [] → prev = K.getLast?
  kept : ∀ a ∈ K, ¬q.pieceBlock a = some i
  blocks : q.blocks = p.blocks
  header : q.pieceBlock = p.pieceBlock
  size : q.blockSize = p.blockSize

section

variable {p q q' : MpPool} {i b : ℕ} {cur prev : Option ℕ} {K R : List ℕ}

/-- A descriptor that stays. -/
theorem Clearing.keep (h : Clearing p i q (some b) prev K R) (hb : ¬q.pieceBlock b = some i) :
    ∃ R', Clearing p i q (q.nextBucket b) (some b) (K ++ [b]) R' := by
  obtain ⟨hlinked, howned, hrest, hprev, hkept, hblocks, hheader, hsize⟩ := h
  cases R with
  | nil => exact absurd hrest (by simp)
  | cons c R =>
    obtain ⟨he, hrest⟩ := hrest
    obtain rfl := Option.some.inj he
    refine ⟨R, by simpa using hlinked, by simpa using howned, hrest, fun _ => by simp, ?_,
      hblocks, hheader, hsize⟩
    intro a ha
    rcases List.mem_append.mp ha with ha | ha
    · exact hkept a ha
    · obtain rfl : a = b := by simpa using ha
      exact hb

/-- **A descriptor that goes**: the link that led to it leads past it. -/
theorem Clearing.drop (h : Clearing p i q (some b) prev K R) (hfree : q.freeBucket b = some q') :
    (q'.firstBucket = some b → ∃ R', Clearing p i { q' with firstBucket := q'.nextBucket b }
      (q'.nextBucket b) (q'.nextBucket b) [] R') ∧
    (¬q'.firstBucket = some b → ∀ a, prev = some a → ∃ R',
      Clearing p i (q'.setNext a (q'.nextBucket b)) (q'.nextBucket b) (some a) K R') := by
  obtain ⟨hlinked, howned, hrest, hprev, hkept, hblocks, hheader, hsize⟩ := h
  cases R with
  | nil => exact absurd hrest (by simp)
  | cons c R =>
    obtain ⟨he, hrest⟩ := hrest
    obtain rfl := Option.some.inj he
    obtain ⟨howned', hblocks', hheader', hsize', hfirst', hnext'⟩ :=
      howned.freeBucket (by simp) hfree
    have hlinked' : Linked q' (K ++ b :: R) := by
      refine hlinked.congr hfirst' (fun a _ => congrFun hnext' a) fun j x hx => ?_
      exact (piece_congr hblocks' x).mpr hx
    have hrest' : Path q'.nextBucket (q'.nextBucket b) R none := by rwa [hnext']
    have hbR : b ∉ R := (List.nodup_cons.mp (List.nodup_append.mp hlinked.nodup).2.1).1
    have hbK : b ∉ K := fun hmem => by
      simpa using (List.nodup_append.mp hlinked.nodup).2.2 b hmem b (by simp)
    have hsub : ∀ a ∈ K ++ R, a ∈ K ++ b :: R := by
      intro a ha
      rcases List.mem_append.mp ha with ha | ha <;> simp [ha]
    have hnodup : (K ++ R).Nodup :=
      hlinked.nodup.sublist ((List.sublist_cons_self b R).append_left K)
    constructor
    · intro hfirst
      -- the first descriptor, so nothing has been passed
      obtain rfl : K = [] := by
        cases K with
        | nil => rfl
        | cons k K =>
          have hk := hlinked'.path.1
          obtain rfl := Option.some.inj (hfirst.symm.trans hk)
          exact absurd (by simp) hbK
      refine ⟨R, ⟨hrest', hnodup, fun a ha => hlinked'.held a (hsub a ha)⟩,
        howned'.congr (fun a ha => ⟨hsub a ha, rfl⟩) rfl, hrest', fun hne => absurd rfl hne,
        by simp, hblocks'.trans hblocks, hheader'.trans hheader, hsize'.trans hsize⟩
    · intro hfirst a ha
      have hne : K ≠ [] := by
        rintro rfl
        exact hfirst hlinked'.path.1
      obtain ⟨K, rfl⟩ : ∃ K', K = K' ++ [a] := by
        have hlast : K.getLast? = some a := (hprev hne).symm.trans ha
        exact List.getLast?_eq_some_iff.mp hlast
      have hba : b ≠ a := fun he => hbK (by simp [he])
      have haR : a ∉ R := fun hmem => by
        have := (List.nodup_append.mp hnodup).2.2 a (by simp) a hmem
        exact this rfl
      obtain ⟨m, hK, hm⟩ := path_append.mp hlinked'.path
      have hpath : Path (q'.setNext a (q'.nextBucket b)).nextBucket q'.firstBucket (K ++ [a])
          (q'.nextBucket b) := by
        rw [nextBucket_setNext]
        refine hK.relink (List.nodup_append.mp hnodup).1
          (fun c hc => Function.update_of_ne hc ..) ?_
        exact Function.update_self ..
      have hrest'' : Path (q'.setNext a (q'.nextBucket b)).nextBucket (q'.nextBucket b) R none := by
        rw [nextBucket_setNext]
        refine hrest'.congr fun c hc => Function.update_of_ne ?_ ..
        rintro rfl
        exact haR hc
      refine ⟨R, ⟨path_append.mpr ⟨_, hpath, hrest''⟩, hnodup,
        fun c hc => hlinked'.held c (hsub c hc)⟩,
        howned'.congr (fun c hc => ⟨hsub c hc, startOfBucket_setNext _ c⟩) rfl, hrest'',
        fun _ => by simp, ?_, hblocks'.trans hblocks, hheader'.trans hheader, hsize'.trans hsize⟩
      intro c hc
      change ¬q'.pieceBlock c = some i
      rw [hheader']
      exact hkept c hc

/-- **The loop of `clear_block`** leaves the descriptors of the other blocks. -/
theorem clearLoop_spec {n : ℕ} {as : List ℕ} (hl : Linked p as) (ho : Owned p as)
    (hrun : Loop.run (clearStep i) n (p, p.firstBucket, p.firstBucket) = some (some q)) :
    ∃ bs, Linked q bs ∧ Owned q bs ∧ (∀ a ∈ bs, ¬q.pieceBlock a = some i) ∧
      q.blocks = p.blocks ∧ q.pieceBlock = p.pieceBlock ∧ q.blockSize = p.blockSize := by
  -- by the rounds of the loop: the descriptors behind it have been dealt with
  have hpost := @Loop.run_induct _ _ (clearStep i)
    (fun s => ∃ K R, Clearing p i s.1 s.2.1 s.2.2 K R)
    (fun r => ∀ q, r = some q → ∃ bs, Linked q bs ∧ Owned q bs ∧
      (∀ a ∈ bs, ¬q.pieceBlock a = some i) ∧ q.blocks = p.blocks ∧
      q.pieceBlock = p.pieceBlock ∧ q.blockSize = p.blockSize) ?_ ?_ n _ _
    ⟨[], as, hl, ho, hl.path, fun hne => absurd rfl hne, by simp, rfl, rfl, rfl⟩ hrun q rfl
  · exact hpost
  · rintro ⟨q, cur, prev⟩ s' ⟨K, R, h⟩ hs
    cases cur with
    | none => simp [clearStep] at hs
    | some b =>
      simp only [clearStep] at hs
      split_ifs at hs with hb
      -- a descriptor in the block is taken out of the chain, at its start or behind the one before
      -- it
      · split at hs
        · simp at hs
        · rename_i q' hfree
          obtain ⟨hdrop, hdrop'⟩ := h.drop hfree
          split_ifs at hs with hfirst
          · obtain rfl := Sum.inl.inj hs
            obtain ⟨R', hR'⟩ := hdrop hfirst
            exact ⟨[], R', hR'⟩
          · cases prev with
            | none => simp at hs
            | some a =>
              obtain rfl := Sum.inl.inj hs
              obtain ⟨R', hR'⟩ := hdrop' hfirst a rfl
              exact ⟨K, R', hR'⟩
      · obtain rfl := Sum.inl.inj hs
        obtain ⟨R', hR'⟩ := h.keep hb
        exact ⟨_, R', hR'⟩
  · rintro ⟨q, cur, prev⟩ r ⟨K, R, h⟩ hs q' rfl
    cases cur with
    | some b =>
      simp only [clearStep] at hs
      split_ifs at hs with hb
      split at hs
      · simp at hs
      · split_ifs at hs
        cases prev with
        | none => simp at hs
        | some a => simp at hs
    | none =>
      obtain rfl : q = q' := by simpa [clearStep] using hs
      -- the chain has come to its end, so nothing is left to be dealt with
      obtain ⟨hlinked, howned, hrest, -, hkept, hblocks, hheader, hsize⟩ := h
      obtain rfl : R = [] := by
        cases R with
        | nil => rfl
        | cons c R => exact absurd hrest.1 (by simp)
      rw [List.append_nil] at hlinked howned
      exact ⟨K, hlinked, howned, hkept, hblocks, hheader, hsize⟩

end

/-! ### The calls -/

/-- **The invariant of the chain of buckets.** -/
def Chained (p : MpPool) : Prop := Laid p ∧ ∃ as, Linked p as ∧ Owned p as

section

variable {p p₁ p' : MpPool} {as : List ℕ} {a i size n : ℕ} {r : Option ℕ}

/-- Changes of the blocks do not touch the chain. -/
theorem Linked.sameBuckets (h : Linked p as) (hsame : SameBuckets p p')
    (hpiece : ∀ j x, p.Piece j x → p'.Piece j x) : Linked p' as := by
  refine h.congr hsame.firstBucket (fun c _ => ?_) hpiece
  rw [MpPool.nextBucket, hsame.bucketAt, MpPool.nextBucket]

theorem Owned.sameBuckets (h : Owned p as) (hsame : SameBuckets p p') : Owned p' as :=
  h.congr (fun c hc => ⟨hc, by rw [hsame.bucketAt]⟩) hsame.heap

theorem Chained.bucketsOk (h : Chained p) : BucketsOk p := by
  obtain ⟨hlaid, as, hlinked, howned⟩ := h
  exact bucketsOk_of_linked hlaid hlinked howned

/-- `clear_block`. -/
theorem Chained.clear (h : Chained p) (hstep : clearBlock n p i = some p') : Chained p' := by
  obtain ⟨hlaid, as, hlinked, howned⟩ := h
  rw [clearBlock] at hstep
  split at hstep
  · simp at hstep
  · split_ifs at hstep with href
    · obtain rfl := Option.some.inj hstep
      exact ⟨hlaid, as, hlinked, howned⟩
    · obtain ⟨q, hq, rfl⟩ := Option.map_eq_some_iff.mp hstep
      obtain ⟨q', hrun, hid⟩ := Option.bind_eq_some_iff.mp hq
      obtain rfl : q' = some q := hid
      obtain ⟨bs, hlinked', howned', hkept, hblocks, hheader, hsize⟩ :=
        clearLoop_spec hlinked howned hrun
      have hlaid' : Laid q := hlaid.congr hsize hblocks hheader
      obtain ⟨hlaid'', hpiece, -⟩ := @emptyBlock_spec q i hlaid' (some 0)
      refine ⟨hlaid'', bs, ⟨hlinked'.path, hlinked'.nodup, fun a ha => ?_⟩,
        howned'.congr (fun a ha => ⟨ha, rfl⟩) rfl⟩
      -- a descriptor that stays lies in another block
      obtain ⟨j, hj⟩ := hlinked'.held a ha
      refine ⟨j, (hpiece j _).mpr ⟨?_, hj⟩⟩
      rintro rfl
      exact hkept a ha (hlaid'.header hj)

/-- `mp_reset_pool`. -/
theorem Chained.reset (h : Chained p) (hstep : mpResetPool n p = some p') : Chained p' := by
  obtain ⟨hlaid, as, hlinked, howned⟩ := h
  obtain ⟨q, hq, rfl⟩ := Option.map_eq_some_iff.mp hstep
  obtain ⟨q', hrun, hid⟩ := Option.bind_eq_some_iff.mp hq
  obtain rfl : q' = some q := hid
  -- the loop changes descriptors and frees buckets
  have hloop := @Loop.run_induct _ _ resetStep
    (fun s => s.1.blocks = p.blocks ∧ s.1.pieceBlock = p.pieceBlock ∧
      s.1.blockSize = p.blockSize ∧ ∀ r ∈ s.1.heap, 0 < r.2)
    (fun r => ∀ q, r = some q → q.blocks = p.blocks ∧ q.pieceBlock = p.pieceBlock ∧
      q.blockSize = p.blockSize ∧ ∀ r ∈ q.heap, 0 < r.2) ?_ ?_ n _ _
    ⟨rfl, rfl, rfl, howned.sizes⟩ hrun q rfl
  · obtain ⟨hblocks, hheader, hsize, hheap⟩ := hloop
    obtain ⟨hlaid', -⟩ := emptyAll_spec (hlaid.congr hsize hblocks hheader) none (some 0)
    exact ⟨hlaid', [], ⟨rfl, List.nodup_nil, by simp⟩, ⟨by simp, by simp, hheap⟩⟩
  · rintro ⟨q, cur⟩ s' h hs
    cases cur with
    | none => simp [resetStep] at hs
    | some b =>
      simp only [resetStep] at hs
      split at hs
      · simp at hs
      · rename_i q' hfree
        obtain rfl := Sum.inl.inj hs
        rw [MpPool.freeBucket] at hfree
        split at hfree
        · obtain rfl := Option.some.inj hfree
          exact h
        · split_ifs at hfree
          obtain rfl := Option.some.inj hfree
          exact ⟨h.1, h.2.1, h.2.2.1, fun r hr => h.2.2.2 r (List.mem_filter.mp hr).1⟩
  · rintro ⟨q, cur⟩ r h hs q' rfl
    cases cur with
    | some b =>
      simp only [resetStep] at hs
      split at hs <;> simp at hs
    | none =>
      obtain rfl : q = q' := by simpa [resetStep] using hs
      exact h

/-- `mp_free`. -/
theorem Chained.free (h : Chained p) (hstep : mpFree n p a = some p') : Chained p' := by
  obtain ⟨hlaid, as, hlinked, howned⟩ := h
  rw [mpFree] at hstep
  obtain ⟨found, hfound, hstep⟩ := Option.bind_eq_some_iff.mp hstep
  obtain ⟨⟨p₁, piece⟩, hp₁, hstep⟩ := Option.bind_eq_some_iff.mp hstep
  -- without a bucket at the address nothing changes, and else its memory is given back
  have h₁ : Chained p₁ := by
    cases found with
    | none =>
      obtain ⟨rfl, -⟩ := Prod.mk.inj (Option.some.inj hp₁)
      exact ⟨hlaid, as, hlinked, howned⟩
    | some b =>
      obtain ⟨⟨found, last⟩, hseek, he⟩ := Option.map_eq_some_iff.mp hfound
      obtain rfl : found = some b := he
      have hb : b ∈ as := List.mem_of_find?_eq_some (seek_eq hlinked.path hseek).1.symm
      obtain ⟨q, hfree, he⟩ := Option.map_eq_some_iff.mp hp₁
      obtain ⟨rfl, -⟩ := Prod.mk.inj he
      obtain ⟨howned', hblocks, hheader, hsize, hfirst, hnext⟩ := howned.freeBucket hb hfree
      have hbucket : ∀ c,
          ((q.setBucket b { q.bucketAt b with stillInUse := false }).bucketAt c).next =
            (q.bucketAt c).next ∧
          ((q.setBucket b { q.bucketAt b with stillInUse := false }).bucketAt c).startOfBucket =
            (q.bucketAt c).startOfBucket := by
        intro c
        by_cases hcb : c = b
        · subst hcb
          simp [MpPool.setBucket]
        · simp [MpPool.setBucket, Function.update_of_ne hcb]
      refine ⟨hlaid.congr hsize hblocks hheader, as, hlinked.congr hfirst
        (fun c _ => (hbucket c).1.trans (congrFun hnext c)) fun j x hx => ?_,
        howned'.congr (fun c hc => ⟨hc, (hbucket c).2⟩) rfl⟩
      exact (piece_congr hblocks x).mpr hx
  dsimp only at hstep
  split at hstep
  · obtain rfl := Option.some.inj hstep
    exact h₁
  -- a block that has lost its last reference is cleared at once
  · obtain ⟨p₂, href, hstep⟩ := Option.bind_eq_some_iff.mp hstep
    obtain ⟨hlaid₁, as₁, hlinked₁, howned₁⟩ := h₁
    obtain ⟨hlaid₂, hsame, hpiece, -, -⟩ := addRef_spec hlaid₁ href
    have h₂ : Chained p₂ := by
      exact ⟨hlaid₂, as₁, hlinked₁.sameBuckets hsame fun j x hx => (hpiece j x).mpr hx,
        howned₁.sameBuckets hsame⟩
    split_ifs at hstep
    · exact h₂.clear hstep
    · obtain rfl := Option.some.inj hstep
      exact h₂

/-- A descriptor without a bucket may join the owners. -/
theorem Owned.join {bs : List ℕ} (ho : Owned p bs) (hcover : ∀ b ∈ as, b ≠ a → b ∈ bs)
    (hempty : (p.bucketAt a).startOfBucket = none) : Owned p as := by
  refine ⟨fun b hb s hs => ?_, fun b hb c hc s hsb hsc => ?_, ho.sizes⟩
  · by_cases hba : b = a
    · subst hba
      exact absurd (hs.symm.trans hempty) (by simp)
    · exact ho.start b (hcover b hb hba) s hs
  · by_cases hba : b = a
    · subst hba
      exact absurd (hsb.symm.trans hempty) (by simp)
    · by_cases hca : c = a
      · subst hca
        exact absurd (hsc.symm.trans hempty) (by simp)
      · exact ho.distinct b (hcover b hb hba) c (hcover c hc hca) s hsb hsc

/-- A descriptor that is given fresh memory owns it. -/
theorem Owned.give {bs : List ℕ} {s : ℕ} (ho : Owned p bs) (hcover : ∀ b ∈ as, b ≠ a → b ∈ bs)
    (hsize : 0 < size) (hfresh : ∀ r ∈ p.heap, Apart s size r.1 r.2)
    (hself : (p'.bucketAt a).startOfBucket = some s)
    (hstart : ∀ b, b ≠ a → (p'.bucketAt b).startOfBucket = (p.bucketAt b).startOfBucket)
    (hheap : p'.heap = (s, size) :: p.heap) : Owned p' as := by
  -- the memory is not the bucket of another descriptor
  have hother : ∀ b ∈ as, b ≠ a → ∀ s', (p.bucketAt b).startOfBucket = some s' → s' ≠ s := by
    rintro b hb hba s' hs' rfl
    obtain ⟨m, hm⟩ := ho.start b (hcover b hb hba) s' hs'
    have hpos := ho.sizes _ hm
    simp only at hpos
    rcases hfresh _ hm with hap | hap <;> simp only at hap <;> omega
  refine ⟨fun b hb s' hs' => ?_, fun b hb c hc s' hsb hsc => ?_, fun r hr => ?_⟩
  · rw [hheap]
    by_cases hba : b = a
    · subst hba
      obtain rfl := Option.some.inj (hs'.symm.trans hself)
      exact ⟨size, by simp⟩
    · rw [hstart b hba] at hs'
      obtain ⟨m, hm⟩ := ho.start b (hcover b hb hba) s' hs'
      exact ⟨m, List.mem_cons_of_mem _ hm⟩
  · by_cases hba : b = a
    · subst hba
      obtain rfl := Option.some.inj (hsb.symm.trans hself)
      by_contra hbc
      have hcb : c ≠ b := fun he => hbc he.symm
      rw [hstart c hcb] at hsc
      exact hother c hc hcb s' hsc rfl
    · by_cases hca : c = a
      · subst hca
        obtain rfl := Option.some.inj (hsc.symm.trans hself)
        rw [hstart b hba] at hsb
        exact absurd rfl (hother b hb hba s' hsb)
      · rw [hstart b hba] at hsb
        rw [hstart c hca] at hsc
        exact ho.distinct b (hcover b hb hba) c (hcover c hc hca) s' hsb hsc
  · rw [hheap] at hr
    rcases List.mem_cons.mp hr with rfl | hr
    · exact hsize
    · exact ho.sizes r hr

/-- The bucket of a linked descriptor is filled, or is left without memory. -/
theorem fillBucket_spec {bs : List ℕ} {memory : Option ℕ} (hlaid : Laid p) (h : Linked p as)
    (ho : Owned p bs) (hcover : ∀ b ∈ as, b ≠ a → b ∈ bs)
    (hnull : memory = none → (p.bucketAt a).startOfBucket = none) (hsize : 0 < size)
    (hfresh : ∀ s, memory = some s → ∀ r ∈ p.heap, Apart s size r.1 r.2)
    (hstep : fillBucket p a size memory = some (p', r)) : Chained p' := by
  cases memory with
  -- the descriptor stays, unused, and its block loses a reference
  | none =>
    obtain ⟨q, href, he⟩ := Option.map_eq_some_iff.mp hstep
    obtain ⟨rfl, -⟩ := Prod.mk.inj he
    obtain ⟨hlaid', hsame, hpiece, -, -⟩ := addRef_spec hlaid href
    exact ⟨hlaid', as, h.sameBuckets hsame fun j x hx => (hpiece j x).mpr hx,
      (ho.join hcover (hnull rfl)).sameBuckets hsame⟩
  -- the descriptor owns the new memory
  | some s =>
    obtain ⟨hp', -⟩ := Prod.mk.inj (Option.some.inj hstep)
    have hnext : ∀ b, p'.nextBucket b = p.nextBucket b := by
      intro b
      rw [← hp']
      by_cases hba : b = a
      · subst hba
        simp [MpPool.nextBucket, MpPool.setBucket]
      · simp [MpPool.nextBucket, MpPool.setBucket, Function.update_of_ne hba]
    have hstart : ∀ b, b ≠ a → (p'.bucketAt b).startOfBucket = (p.bucketAt b).startOfBucket := by
      intro b hba
      rw [← hp']
      simp [MpPool.setBucket, Function.update_of_ne hba]
    have hself : (p'.bucketAt a).startOfBucket = some s := by
      rw [← hp']
      simp [MpPool.setBucket]
    have hheap : p'.heap = (s, size) :: p.heap := by
      rw [← hp']
      rfl
    have hblocks : p'.blocks = p.blocks := by
      rw [← hp']
      rfl
    have howned : Owned p' as := ho.give hcover hsize (hfresh s rfl) hself hstart hheap
    refine ⟨?_, as, h.congr (by rw [← hp']; rfl) (fun b _ => hnext b) fun j x hx => ?_, howned⟩
    · rw [← hp']
      exact hlaid.congr rfl rfl rfl
    · exact (piece_congr hblocks x).mpr hx

/-- The links and the buckets of a pool in which the descriptor at `a` is written. -/
theorem nextBucket_setBucket (bucket : MpBucket) :
    (p.setBucket a bucket).nextBucket = Function.update p.nextBucket a bucket.next := by
  funext b
  by_cases hba : b = a
  · subst hba
    simp [MpPool.nextBucket, MpPool.setBucket]
  · simp [MpPool.nextBucket, MpPool.setBucket, Function.update_of_ne hba]

/-- **A new descriptor is linked in** at the end of the chain, with a null link in it. -/
theorem Cut.link {last : Option ℕ} (hcut : Cut p p₁ i a sizeofBucket) (h : Linked p as)
    (ho : Owned p as) (bucket : MpBucket) (hbucket : bucket.next = none)
    (hp' : p' = match last with
      | some prev => (p₁.setBucket a bucket).setNext prev (some a)
      | none => { p₁.setBucket a bucket with firstBucket := some a })
    (hlast : last = as.getLast?.or p.firstBucket) :
    Laid p' ∧ Linked p' (as ++ [a]) ∧ Owned p' as ∧ p'.heap = p.heap ∧
      (p'.bucketAt a).startOfBucket = bucket.startOfBucket := by
  -- the piece has just been cut, so it is no descriptor yet
  have ha : a ∉ as := by
    intro hmem
    obtain ⟨j, hj⟩ := h.held a hmem
    exact hcut.fresh j _ hj
  have hnodup : (as ++ [a]).Nodup :=
    List.nodup_append.mpr ⟨h.nodup, List.nodup_singleton a, fun b hb c hc => by
      obtain rfl : c = a := by simpa using hc
      exact fun he => ha (he ▸ hb)⟩
  have hheld : ∀ b ∈ as ++ [a], ∃ j, p₁.Piece j (b, sizeofBucket) := by
    intro b hb
    rcases List.mem_append.mp hb with hb | hb
    · obtain ⟨j, hj⟩ := h.held b hb
      exact ⟨j, (hcut.piece j _).mpr (Or.inl hj)⟩
    · obtain rfl : b = a := by simpa using hb
      exact ⟨i, (hcut.piece i _).mpr (Or.inr ⟨rfl, rfl⟩)⟩
  have hne : ∀ b ∈ as, b ≠ a := fun b hb he => ha (he ▸ hb)
  have hpath : Path (p₁.setBucket a bucket).nextBucket p.firstBucket as none := by
    rw [nextBucket_setBucket]
    refine h.path.congr fun b hb => ?_
    rw [Function.update_of_ne (hne b hb), MpPool.nextBucket, hcut.same.bucketAt, MpPool.nextBucket]
  have hstart : ∀ b ∈ as, ((p₁.setBucket a bucket).bucketAt b).startOfBucket =
      (p.bucketAt b).startOfBucket := by
    intro b hb
    simp [MpPool.setBucket, Function.update_of_ne (hne b hb), hcut.same.bucketAt]
  -- the descriptor is the first one, or it is linked behind the last
  rcases List.eq_nil_or_concat as with rfl | ⟨K, k, rfl⟩
  · obtain rfl : last = none := hlast.trans h.path
    subst hp'
    refine ⟨hcut.laid.congr rfl rfl rfl, ⟨⟨rfl, ?_⟩, hnodup, hheld⟩, ⟨by simp, by simp, ?_⟩,
      hcut.same.heap, by simp [MpPool.setBucket]⟩
    · change (p₁.setBucket a bucket).nextBucket a = none
      rw [nextBucket_setBucket, Function.update_self, hbucket]
    · change ∀ r ∈ p₁.heap, 0 < r.2
      rw [hcut.same.heap]
      exact ho.sizes
  · rw [List.concat_eq_append] at *
    obtain rfl : last = some k := by simpa using hlast
    subst hp'
    have hak : a ≠ k := (hne k (by simp)).symm
    refine ⟨hcut.laid.congr rfl rfl rfl, ⟨?_, hnodup, hheld⟩, ho.congr (fun b hb => ⟨hb, ?_⟩)
      hcut.same.heap, hcut.same.heap, ?_⟩
    · change Path _ p₁.firstBucket _ _
      rw [hcut.same.firstBucket, nextBucket_setNext]
      refine path_append.mpr ⟨some a, ?_, rfl, ?_⟩
      · exact hpath.relink h.nodup (fun b hb => Function.update_of_ne hb ..)
          (Function.update_self ..)
      · rw [Function.update_of_ne hak, nextBucket_setBucket, Function.update_self]
        exact hbucket
    · rw [startOfBucket_setNext]
      exact hstart b hb
    · rw [startOfBucket_setNext]
      simp [MpPool.setBucket]

end

/-! ### Runs -/

/-- All descriptors of the chain are in use. -/
def NoFreeBucket (p : MpPool) : Prop :=
  ∀ as, Path p.nextBucket p.firstBucket as none → ∀ a ∈ as,
    (p.bucketAt a).startOfBucket ≠ none

/-- The bytes of a new descriptor: the link is null, and so is the start where there is no
memory for the bucket. -/
def CleanBytes (supply : Supply) : Prop :=
  supply.stale.next = none ∧ (supply.bucket = none → supply.stale.startOfBucket = none)

/-- **The calls that keep the chain**: no piece is larger than a block, and a bucket that
takes a new descriptor finds clean bytes. -/
def Clean (c : Client) : Op → Prop
  | .malloc size supply =>
    (size ≤ c.pool.blockSize → size + sizeofPiece ≤ c.pool.blockSize ∨ supply.block = none) ∧
      (c.pool.blockSize < size → NoFreeBucket c.pool → CleanBytes supply)
  | _ => True

section

variable {p p' : MpPool} {c c' : Client} {size n : ℕ} {supply : Supply} {r : Option ℕ}

/-- `malloc_a_piece`. -/
theorem Chained.mallocPiece {newblock : Option ℕ} (h : Chained p)
    (hfit : size + sizeofPiece ≤ p.blockSize ∨ newblock = none)
    (hsound : ∀ a, newblock = some a → p.Unused a (sizeofBlock + p.blockSize))
    (hstep : mallocAPiece p size newblock = some (p', r)) : Chained p' := by
  obtain ⟨hlaid, as, hlinked, howned⟩ := h
  rcases mallocAPiece_spec hlaid hfit hsound hstep with ⟨-, hp'⟩ | ⟨i, a, -, hp'⟩
  · exact ⟨hp'.laid, as, hlinked.sameBuckets hp'.same fun j x hx => (hp'.piece j x).mpr hx,
      howned.sameBuckets hp'.same⟩
  · exact ⟨hp'.laid, as, hlinked.sameBuckets hp'.same fun j x hx => (hp'.piece j x).mpr (Or.inl hx),
      howned.sameBuckets hp'.same⟩

/-- `malloc_a_bucket`. -/
theorem Chained.mallocBucket (h : Chained p) (hclean : NoFreeBucket p → CleanBytes supply)
    (hsound : supply.Sound p size) (hsize : 0 < size)
    (hstep : mallocABucket n p size supply = some (p', r)) : Chained p' := by
  obtain ⟨hlaid, as, hlinked, howned⟩ := h
  rw [mallocABucket] at hstep
  obtain ⟨⟨found, last⟩, hseek, hstep⟩ := Option.bind_eq_some_iff.mp hstep
  obtain ⟨hfound, hlast⟩ := seek_eq hlinked.path hseek
  cases found with
  | some b =>
    -- a descriptor that is not in use
    obtain ⟨p₁, href, hstep⟩ := Option.bind_eq_some_iff.mp hstep
    have hb : b ∈ as := List.mem_of_find?_eq_some hfound.symm
    have hempty : (p.bucketAt b).startOfBucket = none := by
      have := List.find?_some hfound.symm
      simpa using this
    obtain ⟨hlaid₁, hsame, hpiece, -, -⟩ := addRef_spec hlaid href
    refine fillBucket_spec hlaid₁ (hlinked.sameBuckets hsame fun j x hx => (hpiece j x).mpr hx)
      (howned.sameBuckets hsame) (fun _ hc _ => hc) (fun _ => ?_) hsize (fun s hs r hr => ?_) hstep
    · rw [hsame.bucketAt, hempty]
    · rw [hsame.heap] at hr
      exact (hsound.bucket s hs).2 r hr
  | none =>
    obtain ⟨⟨p₁, piece⟩, hmalloc, hstep⟩ := Option.bind_eq_some_iff.mp hstep
    have hfit : sizeofBucket + sizeofPiece ≤ p.blockSize ∨ supply.block = none := by
      have := hlaid.size_ge
      simp only [mpMinBlkSize, sizeofBucket, sizeofPiece] at *
      omega
    rcases mallocAPiece_spec hlaid hfit hsound.block hmalloc with ⟨rfl, hp₁⟩ | ⟨i, a, rfl, hcut⟩
    · obtain ⟨rfl, -⟩ := Prod.mk.inj (Option.some.inj hstep)
      exact ⟨hp₁.laid, as, hlinked.sameBuckets hp₁.same fun j x hx => (hp₁.piece j x).mpr hx,
        howned.sameBuckets hp₁.same⟩
    · obtain ⟨hnext, hstart⟩ := hclean fun as' hpath b hb => by
        obtain rfl := hpath.unique hlinked.path
        have := List.find?_eq_none.mp hfound.symm b hb
        simpa [Option.isNone_iff_eq_none] using this
      obtain ⟨hlaid', hlinked', howned', hheap, hbucket⟩ := hcut.link hlinked howned
        { supply.stale with stillInUse := false } hnext rfl (hlast rfl)
      refine fillBucket_spec hlaid' hlinked' howned' (fun b hb hba => ?_) (fun hnone => ?_) hsize
        (fun s hs r hr => ?_) hstep
      · rcases List.mem_append.mp hb with hb | hb
        · exact hb
        · exact absurd (by simpa using hb) hba
      · rw [hbucket]
        exact hstart hnone
      · rw [hheap] at hr
        exact (hsound.bucket s hs).2 r hr

/-- **One call.** -/
theorem Chained.step {op : Op} (h : Chained c.pool) (hclean : Clean c op)
    (hstep : OpStep c op c') : Chained c'.pool := by
  cases hstep with
  | @malloc size supply pool addr hsound hret =>
    obtain ⟨n, hn⟩ := hret.exists_fuel
    rcases mpMalloc_cases hn with ⟨-, rfl, rfl⟩ | ⟨-, hsize, hn⟩ | ⟨hsize, hn⟩
    · exact h
    · exact h.mallocPiece (hclean.1 hsize) hsound.block hn
    · exact h.mallocBucket (hclean.2 hsize) hsound (by omega) hn
  | free hlive hret =>
    obtain ⟨n, hn⟩ := hret.exists_fuel
    exact h.free hn
  | reset hret =>
    obtain ⟨n, hn⟩ := hret.exists_fuel
    exact h.reset hn

/-- **The chain of buckets stays well formed** over every run whose new descriptors find
clean bytes and whose pieces are not larger than a block. -/
theorem run_bucketsOk {autoClear : Bool} {memory : Option ℕ} {pieceBlock : ℕ → Option ℕ}
    {bucketAt : ℕ → MpBucket} {ops : List Op}
    (hpool : mpCreatePool size autoClear memory pieceBlock bucketAt = some p)
    (hrun : Runs.Run (Runs.guard Clean OpStep) ⟨p, []⟩ ops c) : BucketsOk c.pool := by
  obtain ⟨hlaid, hfirst, hheap, -⟩ := laid_mpCreatePool hpool
  have h₀ : Chained p := ⟨hlaid, [], ⟨hfirst, List.nodup_nil, by simp⟩,
    ⟨by simp, by simp, by simp [hheap]⟩⟩
  have hinv : Chained c.pool :=
    @Runs.Run.invariant _ _ _ _ _ _ (fun c => Chained c.pool) hrun h₀
      fun _ _ _ h hs => Chained.step h hs.1 hs.2
  exact hinv.bucketsOk

end

/-! ### A chain that goes on into stale bytes -/

/-- A bucket of 500 bytes from the sample pool, whose memory holds the bytes `stale`. -/
theorem opStep_bucket (stale : MpBucket) :
    ∃ p' r, mpMalloc 1 samplePool 500 { sampleSupply with stale := stale } = some (p', r) ∧
      OpStep ⟨samplePool, []⟩ (.malloc 500 { sampleSupply with stale := stale })
        ⟨p', (r.map (·, 500)).toList ++ []⟩ := by
  have hsome : (mpMalloc 1 samplePool 500 { sampleSupply with stale := stale }).map Prod.snd =
      some (some 9000) := rfl
  obtain ⟨⟨p', r⟩, hp', -⟩ := Option.map_eq_some_iff.mp hsome
  have hsound := sound_sampleSupply 500
  refine ⟨p', r, hp', .malloc ⟨hsound.block, hsound.bucket⟩ ?_⟩
  refine Filter.eventually_atTop.mpr ⟨1, fun n hn => ?_⟩
  obtain ⟨m, rfl⟩ : ∃ m, n = m + 1 := ⟨n - 1, by omega⟩
  exact hp'

/-- On clean bytes the chain of one descriptor is well formed. -/
theorem run_bucketsOk_sample : ∃ c, Runs.Run (Runs.guard Clean OpStep) ⟨samplePool, []⟩
    [.malloc 500 { sampleSupply with stale := ⟨none, true, some 5⟩ }] c ∧ BucketsOk c.pool := by
  obtain ⟨p', r, -, hstep⟩ := opStep_bucket ⟨none, true, some 5⟩
  have hclean : Clean ⟨samplePool, []⟩
      (.malloc 500 { sampleSupply with stale := ⟨none, true, some 5⟩ }) :=
    ⟨fun hle => absurd hle (by decide), fun _ _ => ⟨rfl, fun hnone => absurd hnone (by decide)⟩⟩
  have hrun : Runs.Run (Runs.guard Clean OpStep) ⟨samplePool, []⟩
      ([] ++ [.malloc 500 { sampleSupply with stale := ⟨none, true, some 5⟩ }]) _ :=
    Runs.Run.nil.snoc ⟨hclean, hstep⟩
  exact ⟨_, hrun, run_bucketsOk mpCreatePool_samplePool hrun⟩

/-- **On other bytes the chain leads out of the pool**: the link of the first descriptor is
what the memory held. -/
theorem not_bucketsOk_sample : ∃ c, Runs.Run OpStep ⟨samplePool, []⟩
    [.malloc 500 { sampleSupply with stale := ⟨some 777, true, none⟩ }] c ∧
      ¬BucketsOk c.pool := by
  obtain ⟨p', r, hp', hstep⟩ := opStep_bucket ⟨some 777, true, none⟩
  refine ⟨_, Runs.Run.nil.snoc hstep, ?_⟩
  have hview : (mpMalloc 1 samplePool 500 { sampleSupply with stale := ⟨some 777, true, none⟩ }).map
      (fun r => (r.1.firstBucket, r.1.nextBucket 1072, r.1.pieceBlock 777)) =
        some (some 1072, some 777, none) := rfl
  rw [hp', Option.map_some, Option.some.injEq, Prod.mk.injEq, Prod.mk.injEq] at hview
  obtain ⟨hfirst, hnext, hpiece⟩ := hview
  rintro ⟨as, hpath, -, hheld⟩
  change Path p'.nextBucket p'.firstBucket as none at hpath
  rw [hfirst] at hpath
  cases as with
  | nil => exact absurd hpath (by simp)
  | cons a as =>
    obtain ⟨ha, hpath⟩ := hpath
    obtain rfl := Option.some.inj ha
    rw [hnext] at hpath
    cases as with
    | nil => exact absurd hpath (by simp)
    | cons b as =>
      obtain rfl := Option.some.inj hpath.1
      obtain ⟨⟨i, -, hi, -⟩, -⟩ := hheld 777 (by simp)
      exact absurd (hi.symm.trans hpiece) (by simp)

end MemPool

end BackendStudy
