import BackendStudy.MemPool.Model
import Mathlib.Data.List.Pairwise

/-!
# Pieces and their blocks

The pieces cut from a block since it was last emptied fill it from the front: they do not
meet, they lie between the block's header and its free space, and their headers point to the
block (`BackendStudy.MemPool.BlockLaid`). A pool is laid out well when all its blocks are and
no two blocks meet (`BackendStudy.MemPool.Laid`).

A request for a piece keeps this as long as no piece is cut that is larger than a block
(`BackendStudy.MemPool.mallocAPiece_spec`). The search for space compares the size of the
piece with the free space, so a block with enough space is safe, but a new block is cut
without a comparison.
-/

namespace BackendStudy

namespace MemPool

/-! ### Layout -/

/-- **A block filled from the front.** -/
structure BlockLaid (p : MpPool) (i : ℕ) (b : MpBlock) : Prop where
  low : b.addr + sizeofBlock ≤ b.startOfRest
  high : b.startOfRest ≤ b.endOfBlock
  size : b.endOfBlock = b.addr + sizeofBlock + p.blockSize
  within : ∀ x ∈ b.pieces, b.addr + sizeofBlock + sizeofPiece ≤ x.1 ∧ x.1 + x.2 ≤ b.startOfRest
  ordered : b.pieces.Pairwise fun x y => y.1 + y.2 + sizeofPiece ≤ x.1
  header : ∀ x ∈ b.pieces, p.pieceBlock x.1 = some i

/-- **A pool laid out well.** -/
structure Laid (p : MpPool) : Prop where
  size_ge : mpMinBlkSize ≤ p.blockSize
  size_le : p.blockSize ≤ mpPageSize
  block : ∀ (i : ℕ) (b : MpBlock), p.blocks[i]? = some b → BlockLaid p i b
  apart : ∀ (i j : ℕ) (b c : MpBlock), p.blocks[i]? = some b → p.blocks[j]? = some c → i ≠ j →
    Apart b.addr (sizeofBlock + p.blockSize) c.addr (sizeofBlock + p.blockSize)

/-- A piece of the block `i`, by the address and the size of its data. -/
def MpPool.Piece (p : MpPool) (i : ℕ) (x : ℕ × ℕ) : Prop :=
  ∃ b, p.blocks[i]? = some b ∧ x ∈ b.pieces

/-- The reference counter of the block `i`. -/
def MpPool.ref (p : MpPool) (i : ℕ) : ℤ := (p.blocks[i]?.map MpBlock.refCounter).getD 0

/-- The parts of a pool that blocks have nothing to do with. -/
structure SameBuckets (p p' : MpPool) : Prop where
  blockSize : p'.blockSize = p.blockSize
  firstBucket : p'.firstBucket = p.firstBucket
  autoClear : p'.autoClear = p.autoClear
  bucketAt : p'.bucketAt = p.bucketAt
  heap : p'.heap = p.heap

theorem SameBuckets.refl (p : MpPool) : SameBuckets p p := ⟨rfl, rfl, rfl, rfl, rfl⟩

theorem SameBuckets.trans {p p' p'' : MpPool} (h : SameBuckets p p') (h' : SameBuckets p' p'') :
    SameBuckets p p'' :=
  ⟨h'.blockSize.trans h.blockSize, h'.firstBucket.trans h.firstBucket,
    h'.autoClear.trans h.autoClear, h'.bucketAt.trans h.bucketAt, h'.heap.trans h.heap⟩

section

variable {p p' : MpPool} {i j : ℕ} {b : MpBlock} {x y : ℕ × ℕ}

/-- The free space of a block, without the wrapping of the subtraction. -/
theorem BlockLaid.restBlockSpace_eq (h : BlockLaid p i b) (hsize : p.blockSize ≤ mpPageSize) :
    restBlockSpace b = b.endOfBlock - b.startOfRest := by
  have hlow := h.low
  have hhigh := h.high
  have hend := h.size
  have hpage : mpPageSize < 2 ^ 64 := by decide
  have hsub : b.endOfBlock + 2 ^ 64 - b.startOfRest = b.endOfBlock - b.startOfRest + 2 ^ 64 := by
    omega
  rw [restBlockSpace, hsub, Nat.add_mod_right, Nat.mod_eq_of_lt]
  omega

theorem Laid.header (h : Laid p) (hx : p.Piece i x) : p.pieceBlock x.1 = some i := by
  obtain ⟨b, hb, hmem⟩ := hx
  exact (h.block i b hb).header x hmem

/-- **Two pieces of a block do not meet**, with their headers. -/
theorem Laid.piece_apart (h : Laid p) (hx : p.Piece i x) (hy : p.Piece i y) (hne : x ≠ y) :
    Apart (x.1 - sizeofPiece) (sizeofPiece + x.2) (y.1 - sizeofPiece) (sizeofPiece + y.2) := by
  obtain ⟨b, hb, hx⟩ := hx
  obtain ⟨c, hc, hy⟩ := hy
  obtain rfl := Option.some.inj (hb.symm.trans hc)
  have hl := h.block i b hb
  let R : ℕ × ℕ → ℕ × ℕ → Prop := fun x y =>
    Apart (x.1 - sizeofPiece) (sizeofPiece + x.2) (y.1 - sizeofPiece) (sizeofPiece + y.2)
  have hsymm : Std.Symm R := ⟨fun _ _ hxy => hxy.symm⟩
  have hpw : b.pieces.Pairwise R := by
    refine hl.ordered.imp_of_mem fun {x y} hx hy hxy => Or.inr ?_
    have hxw := hl.within x hx
    have hyw := hl.within y hy
    omega
  exact hpw.forall hx hy hne

end

/-! ### The search for space -/

/-- A block with another number of failures. -/
def Retried (b b' : MpBlock) : Prop := ∃ n, b' = { b with failedTime := n }

theorem Retried.refl (b : MpBlock) : Retried b b := ⟨b.failedTime, rfl⟩

/-- **The search for space** changes numbers of failures only, and what it finds is a block
with enough space. -/
theorem findBlock_spec {real i : ℕ} {current : Option ℕ} {bs : List MpBlock} :
    ∃ bs' current' found, findBlock real bs i current = (bs', current', found) ∧
      List.Forall₂ Retried bs bs' ∧
      ∀ j, found = some j → ∃ k b, j = i + k ∧ bs[k]? = some b ∧ real ≤ restBlockSpace b := by
  induction bs generalizing i current with
  | nil => exact ⟨[], current, none, rfl, .nil, by simp⟩
  | cons b bs ih =>
    by_cases hfit : restBlockSpace b ≥ real
    · refine ⟨b :: bs, current, some i, by rw [findBlock, if_pos hfit], ?_, ?_⟩
      · exact List.forall₂_same.mpr fun b _ => Retried.refl b
      · rintro j hj
        obtain rfl := Option.some.inj hj
        exact ⟨0, b, rfl, rfl, hfit⟩
    · obtain ⟨bs', current', found, hrec, hsame, hfound⟩ := @ih (i + 1)
        (if b.failed.failedTime ≥ mpMaxBlockFailTime then
          if bs.isEmpty then none else some (i + 1) else current)
      refine ⟨b.failed :: bs', current', found, ?_,
        .cons ⟨_, rfl⟩ hsame, fun j hj => ?_⟩
      · rw [findBlock, if_neg hfit]
        simp only [hrec]
      · obtain ⟨k, c, rfl, hc, hreal⟩ := hfound j hj
        exact ⟨k + 1, c, by omega, hc, hreal⟩

section

variable {p p' : MpPool} {bs : List MpBlock} {i : ℕ} {current : Option ℕ} {b : MpBlock}

/-- A block of a list of blocks that differ in their failures. -/
theorem forall₂_retried {bs bs' : List MpBlock} (h : List.Forall₂ Retried bs bs') (i : ℕ) :
    bs'[i]? = none ∧ bs[i]? = none ∨
      ∃ b n, bs[i]? = some b ∧ bs'[i]? = some { b with failedTime := n } := by
  induction h generalizing i with
  | nil => simp
  | cons hb _ ih =>
    obtain ⟨n, rfl⟩ := hb
    cases i with
    | zero => exact Or.inr ⟨_, n, rfl, rfl⟩
    | succ i => exact ih i

/-- The numbers of failures do not matter to the layout. -/
theorem Laid.retried (h : Laid p) (hbs : List.Forall₂ Retried p.blocks bs) :
    Laid { p with blocks := bs, currentBlock := current } := by
  have hget : ∀ (i : ℕ) (b : MpBlock), bs[i]? = some b → ∃ (b₀ : MpBlock) (n : ℤ),
      p.blocks[i]? = some b₀ ∧ b = { b₀ with failedTime := n } := by
    intro i b hb
    rcases forall₂_retried hbs i with ⟨hnone, -⟩ | ⟨b₀, n, hb₀, hb'⟩
    · exact absurd (hb.symm.trans hnone) (by simp)
    · exact ⟨b₀, n, hb₀, Option.some.inj (hb.symm.trans hb')⟩
  refine ⟨h.size_ge, h.size_le, fun i b hb => ?_, fun i j b c hb hc hij => ?_⟩
  · obtain ⟨b₀, n, hb₀, rfl⟩ := hget i b hb
    obtain ⟨hlow, hhigh, hsize, hwithin, hordered, hheader⟩ := h.block i b₀ hb₀
    exact ⟨hlow, hhigh, hsize, hwithin, hordered, hheader⟩
  · obtain ⟨b₀, n, hb₀, rfl⟩ := hget i b hb
    obtain ⟨c₀, m, hc₀, rfl⟩ := hget j c hc
    exact h.apart i j b₀ c₀ hb₀ hc₀ hij

theorem piece_retried (hbs : List.Forall₂ Retried p.blocks bs) (x : ℕ × ℕ) :
    ({ p with blocks := bs, currentBlock := current } : MpPool).Piece i x ↔ p.Piece i x := by
  rcases forall₂_retried hbs i with ⟨hnone, hnone'⟩ | ⟨b, n, hb, hb'⟩
  · simp [MpPool.Piece, hnone, hnone']
  · simp [MpPool.Piece, hb, hb']

theorem ref_retried (hbs : List.Forall₂ Retried p.blocks bs) :
    ({ p with blocks := bs, currentBlock := current } : MpPool).ref i = p.ref i := by
  rcases forall₂_retried hbs i with ⟨hnone, hnone'⟩ | ⟨b, n, hb, hb'⟩
  · simp [MpPool.ref, hnone, hnone']
  · simp [MpPool.ref, hb, hb']

end

/-! ### Cutting a piece -/

/-- **What a request for a piece makes of a pool**: a piece of the block `i`, and a
reference more there. -/
structure Cut (p p' : MpPool) (i a size : ℕ) : Prop where
  laid : Laid p'
  same : SameBuckets p p'
  piece : ∀ j x, p'.Piece j x ↔ p.Piece j x ∨ (j = i ∧ x = (a, size))
  fresh : ∀ j n, ¬p.Piece j (a, n)
  ref : ∀ j, p'.ref j = p.ref j + if j = i then 1 else 0

section

variable {p : MpPool} {i size : ℕ} {b : MpBlock}

theorem getElem?_modify_some {bs : List MpBlock} {f : MpBlock → MpBlock} {j : ℕ} {c : MpBlock}
    (hc : (bs.modify i f)[j]? = some c) : ∃ b, bs[j]? = some b ∧ c = if i = j then f b else b := by
  rw [List.getElem?_modify] at hc
  obtain ⟨b, hb, rfl⟩ := Option.map_eq_some_iff.mp hc
  exact ⟨b, hb, by split_ifs <;> rfl⟩

/-- A change of one block that leaves it where it is keeps the blocks apart. -/
theorem Laid.apart_modify (h : Laid p) {f : MpBlock → MpBlock} (hf : ∀ b, (f b).addr = b.addr)
    (j k : ℕ) (c d : MpBlock) (hc : (p.blocks.modify i f)[j]? = some c)
    (hd : (p.blocks.modify i f)[k]? = some d) (hjk : j ≠ k) :
    Apart c.addr (sizeofBlock + p.blockSize) d.addr (sizeofBlock + p.blockSize) := by
  obtain ⟨c₀, hc₀, rfl⟩ := getElem?_modify_some hc
  obtain ⟨d₀, hd₀, rfl⟩ := getElem?_modify_some hd
  have hap := h.apart j k c₀ d₀ hc₀ hd₀ hjk
  split_ifs
  · rwa [hf, hf]
  · rwa [hf]
  · rwa [hf]
  · exact hap

/-- **Cutting a piece** from a block with enough space. -/
theorem cutPiece_spec (h : Laid p) (hb : p.blocks[i]? = some b)
    (hfit : size + sizeofPiece ≤ restBlockSpace b) :
    ∃ p' a, cutPiece p i size = some (p', a) ∧ Cut p p' i a size := by
  have hl := h.block i b hb
  rw [hl.restBlockSpace_eq h.size_le] at hfit
  have hlow := hl.low
  have hhigh := hl.high
  have hend := hl.size
  -- no piece has the address of the new one
  have hnew : ∀ j x, p.Piece j x → x.1 ≠ b.startOfRest + sizeofPiece := by
    rintro j x ⟨c, hc, hx⟩ he
    have hcl := h.block j c hc
    have hxw := hcl.within x hx
    by_cases hij : i = j
    · subst hij
      obtain rfl := Option.some.inj (hb.symm.trans hc)
      simp only [sizeofPiece] at *
      omega
    · have hcs := hcl.size
      have hch := hcl.high
      rcases h.apart i j b c hb hc hij with hap | hap <;>
        simp only [sizeofPiece, sizeofBlock] at * <;> omega
  refine ⟨_, b.startOfRest + sizeofPiece, by rw [cutPiece, hb], ?_⟩
  refine ⟨⟨h.size_ge, h.size_le, ?_, ?_⟩, ⟨rfl, rfl, rfl, rfl, rfl⟩, ?_, ?_, ?_⟩
  · intro j c hc
    obtain ⟨c₀, hc₀, rfl⟩ := getElem?_modify_some hc
    have hcl := h.block j c₀ hc₀
    have hheader : ∀ x ∈ c₀.pieces, Function.update p.pieceBlock (b.startOfRest + sizeofPiece)
        (some i) x.1 = some j := by
      intro x hx
      rw [Function.update_of_ne (hnew j x ⟨c₀, hc₀, hx⟩)]
      exact hcl.header x hx
    by_cases hij : i = j
    · subst hij
      obtain rfl := Option.some.inj (hb.symm.trans hc₀)
      rw [if_pos rfl]
      refine ⟨by simp only; omega, by simp only; omega, hcl.size, ?_, ?_, ?_⟩
      · intro x hx
        rcases List.mem_cons.mp hx with rfl | hx
        · simp only
          omega
        · have := hcl.within x hx
          simp only
          omega
      · refine List.pairwise_cons.mpr ⟨fun x hx => ?_, hcl.ordered⟩
        have := hcl.within x hx
        simp only
        omega
      · intro x hx
        rcases List.mem_cons.mp hx with rfl | hx
        · exact Function.update_self ..
        · exact hheader x hx
    · rw [if_neg hij]
      exact ⟨hcl.low, hcl.high, hcl.size, hcl.within, hcl.ordered, hheader⟩
  · exact h.apart_modify fun _ => rfl
  · intro j x
    by_cases hij : i = j
    · subst hij
      simp [MpPool.Piece, MpPool.modifyBlock, hb, or_comm]
    · simp [MpPool.Piece, MpPool.modifyBlock, hij, Ne.symm hij]
  · intro j n hx
    exact hnew j _ hx rfl
  · intro j
    by_cases hij : i = j
    · subst hij
      simp [MpPool.ref, MpPool.modifyBlock, hb]
    · simp [MpPool.ref, MpPool.modifyBlock, hij, Ne.symm hij]

/-- A new block has all its space. -/
theorem restBlockSpace_initANewBlock (addr : ℕ) (hsize : p.blockSize ≤ mpPageSize) :
    restBlockSpace (initANewBlock p addr) = p.blockSize := by
  have hpage : mpPageSize < 2 ^ 64 := by decide
  have hsub : addr + sizeofBlock + p.blockSize + 2 ^ 64 - (addr + sizeofBlock) =
      p.blockSize + 2 ^ 64 := by omega
  rw [restBlockSpace, initANewBlock, hsub, Nat.add_mod_right, Nat.mod_eq_of_lt]
  omega

/-- **A pool with a new block** in memory that was not in use. -/
theorem Laid.newBlock {addr : ℕ} (h : Laid p)
    (hunused : p.Unused addr (sizeofBlock + p.blockSize)) :
    Laid { p with blocks := p.blocks ++ [initANewBlock p addr] } := by
  have hget : ∀ (i : ℕ) (b : MpBlock), (p.blocks ++ [initANewBlock p addr])[i]? = some b →
      p.blocks[i]? = some b ∨ (i = p.blocks.length ∧ b = initANewBlock p addr) := by
    intro i b hb
    rcases lt_trichotomy i p.blocks.length with hi | rfl | hi
    · rw [List.getElem?_append_left hi] at hb
      exact Or.inl hb
    · exact Or.inr ⟨rfl, by simpa using hb.symm⟩
    · rw [List.getElem?_eq_none (by simp; omega)] at hb
      exact absurd hb (by simp)
  have hapart : ∀ (i : ℕ) (b : MpBlock), p.blocks[i]? = some b →
      Apart addr (sizeofBlock + p.blockSize) b.addr (sizeofBlock + p.blockSize) :=
    fun i b hb => hunused.1 b (List.mem_of_getElem? hb)
  refine ⟨h.size_ge, h.size_le, fun i b hb => ?_, fun i j b c hb hc hij => ?_⟩
  · rcases hget i b hb with hb | ⟨rfl, rfl⟩
    · obtain ⟨hlow, hhigh, hsize, hwithin, hordered, hheader⟩ := h.block i b hb
      exact ⟨hlow, hhigh, hsize, hwithin, hordered, hheader⟩
    · exact ⟨le_rfl, Nat.le_add_right _ _, rfl, by simp [initANewBlock], by simp [initANewBlock],
        by simp [initANewBlock]⟩
  · rcases hget i b hb with hb | ⟨rfl, rfl⟩ <;> rcases hget j c hc with hc | ⟨rfl, rfl⟩
    · exact h.apart i j b c hb hc hij
    · exact (hapart i b hb).symm
    · exact hapart j c hc
    · exact absurd rfl hij

theorem piece_newBlock {addr : ℕ} (x : ℕ × ℕ) :
    ({ p with blocks := p.blocks ++ [initANewBlock p addr] } : MpPool).Piece i x ↔
      p.Piece i x := by
  rcases lt_trichotomy i p.blocks.length with hi | rfl | hi
  · simp [MpPool.Piece, List.getElem?_append_left hi]
  · simp [MpPool.Piece, initANewBlock]
  · have hnone : (p.blocks ++ [initANewBlock p addr])[i]? = none :=
      List.getElem?_eq_none (by simp; omega)
    simp [MpPool.Piece, hnone, List.getElem?_eq_none hi.le]

theorem ref_newBlock {addr : ℕ} :
    ({ p with blocks := p.blocks ++ [initANewBlock p addr] } : MpPool).ref i = p.ref i := by
  rcases lt_trichotomy i p.blocks.length with hi | rfl | hi
  · simp [MpPool.ref, List.getElem?_append_left hi]
  · simp [MpPool.ref, initANewBlock]
  · have hnone : (p.blocks ++ [initANewBlock p addr])[i]? = none :=
      List.getElem?_eq_none (by simp; omega)
    simp [MpPool.ref, hnone, List.getElem?_eq_none hi.le]

end

/-- A pool after a request that was not served: the blocks have other numbers of failures. -/
structure Unserved (p p' : MpPool) : Prop where
  laid : Laid p'
  same : SameBuckets p p'
  piece : ∀ j x, p'.Piece j x ↔ p.Piece j x
  ref : ∀ j, p'.ref j = p.ref j

theorem Unserved.cut {p p₁ p' : MpPool} {i a size : ℕ} (h : Unserved p p₁)
    (hcut : Cut p₁ p' i a size) : Cut p p' i a size := by
  refine ⟨hcut.laid, h.same.trans hcut.same, fun j x => ?_, fun j n hx => ?_, fun j => ?_⟩
  · rw [hcut.piece, h.piece]
  · exact hcut.fresh j n ((h.piece j _).mpr hx)
  · rw [hcut.ref, h.ref]

/-- A piece is cut from a new block without a comparison, so it must not be larger than a
block. -/
theorem Laid.cutNewBlock {p : MpPool} {addr size : ℕ} (h : Laid p)
    (hunused : p.Unused addr (sizeofBlock + p.blockSize))
    (hfit : size + sizeofPiece ≤ p.blockSize) :
    ∃ p' a, cutPiece { p with blocks := p.blocks ++ [initANewBlock p addr] } p.blocks.length
      size = some (p', a) ∧ Cut p p' p.blocks.length a size := by
  have h' := h.newBlock hunused
  have hnew : Unserved p { p with blocks := p.blocks ++ [initANewBlock p addr] } :=
    ⟨h', ⟨rfl, rfl, rfl, rfl, rfl⟩, fun j x => piece_newBlock x, fun j => ref_newBlock⟩
  have hlast : (p.blocks ++ [initANewBlock p addr])[p.blocks.length]? =
      some (initANewBlock p addr) := by
    simp
  obtain ⟨p', a, hcut, hp'⟩ := cutPiece_spec h' hlast
    (hfit.trans (restBlockSpace_initANewBlock addr h.size_le).ge)
  exact ⟨p', a, hcut, hnew.cut hp'⟩

/-- **A request for a piece**, of at most the size of a block or with no memory for a new
block, is served from the free space of a block or not at all. -/
theorem mallocAPiece_spec {p p' : MpPool} {size : ℕ} {newblock r : Option ℕ} (h : Laid p)
    (hfit : size + sizeofPiece ≤ p.blockSize ∨ newblock = none)
    (hsound : ∀ a, newblock = some a → p.Unused a (sizeofBlock + p.blockSize))
    (hstep : mallocAPiece p size newblock = some (p', r)) :
    (r = none ∧ Unserved p p') ∨ ∃ i a, r = some a ∧ Cut p p' i a size := by
  rw [mallocAPiece] at hstep
  obtain ⟨bs, current, found, hfind, hsame, hfound⟩ := @findBlock_spec (size + sizeofPiece)
    (p.currentBlock.getD p.blocks.length) p.currentBlock
    (p.blocks.drop (p.currentBlock.getD p.blocks.length))
  generalize p.currentBlock.getD p.blocks.length = start at *
  simp only [hfind] at hstep
  -- what the search changes are counters
  have hall : List.Forall₂ Retried p.blocks (p.blocks.take start ++ bs) := by
    have htake : List.Forall₂ Retried (p.blocks.take start) (p.blocks.take start) :=
      List.forall₂_same.mpr fun b _ => Retried.refl b
    have happend : List.Forall₂ Retried (p.blocks.take start ++ p.blocks.drop start)
        (p.blocks.take start ++ bs) := List.rel_append htake hsame
    rwa [List.take_append_drop] at happend
  have h₁ : Unserved p { p with blocks := p.blocks.take start ++ bs, currentBlock := current } :=
    ⟨h.retried hall, ⟨rfl, rfl, rfl, rfl, rfl⟩, fun j x => piece_retried hall x,
      fun j => ref_retried hall⟩
  -- the new block is apart from the blocks as well after the search
  have hunused : ∀ a, newblock = some a →
      ({ p with blocks := p.blocks.take start ++ bs, currentBlock := current } : MpPool).Unused a
        (sizeofBlock + p.blockSize) := by
    intro a ha
    refine ⟨fun b hb => ?_, (hsound a ha).2⟩
    obtain ⟨j, hj⟩ := List.mem_iff_getElem?.mp hb
    rcases forall₂_retried hall j with ⟨hnone, -⟩ | ⟨b₀, n, hb₀, hb'⟩
    · exact absurd (hj.symm.trans hnone) (by simp)
    · obtain rfl := Option.some.inj (hj.symm.trans hb')
      exact (hsound a ha).1 b₀ (List.mem_of_getElem? hb₀)
  cases found with
  -- the piece is cut from a block that had the room before the search as well
  | some i =>
    obtain ⟨k, b, rfl, hb, hreal⟩ := hfound i rfl
    rw [List.getElem?_drop] at hb
    obtain ⟨b', hb', hreal'⟩ : ∃ b', (p.blocks.take start ++ bs)[start + k]? = some b' ∧
        size + sizeofPiece ≤ restBlockSpace b' := by
      rcases forall₂_retried hall (start + k) with ⟨-, hnone⟩ | ⟨b₀, n, hb₀, hb'⟩
      · exact absurd (hb.symm.trans hnone) (by simp)
      · obtain rfl := Option.some.inj (hb.symm.trans hb₀)
        exact ⟨_, hb', hreal⟩
    obtain ⟨p₂, a, hcut, hp₂⟩ := cutPiece_spec h₁.laid hb' hreal'
    simp only [hcut, Option.map_some, Option.some.injEq, Prod.mk.injEq] at hstep
    obtain ⟨rfl, rfl⟩ := hstep
    exact Or.inr ⟨_, a, rfl, h₁.cut hp₂⟩
  | none =>
    cases newblock with
    | none =>
      simp only [mallocABlock, Option.bind_some, Option.some.injEq, Prod.mk.injEq] at hstep
      obtain ⟨rfl, rfl⟩ := hstep
      exact Or.inl ⟨rfl, h₁⟩
    | some addr =>
      -- the new block has room, since the size has been checked against that of a block
      have hfit' : size + sizeofPiece ≤ p.blockSize := hfit.resolve_right (by simp)
      cases current with
      | none => simp [mallocABlock] at hstep
      | some current =>
        obtain ⟨p₂, a, hcut, hp₂⟩ := h₁.laid.cutNewBlock (hunused addr rfl) hfit'
        simp only [mallocABlock, Option.bind_some, hcut, Option.map_some, Option.some.injEq,
          Prod.mk.injEq] at hstep
        obtain ⟨rfl, rfl⟩ := hstep
        exact Or.inr ⟨_, a, rfl, h₁.cut hp₂⟩

/-! ### References and emptying -/

section

variable {p p' : MpPool} {i j a : ℕ} {n : ℤ}

/-- The layout does not depend on the descriptors, nor on where a search starts. -/
theorem Laid.congr (h : Laid p) (hsize : p'.blockSize = p.blockSize)
    (hblocks : p'.blocks = p.blocks) (hheader : p'.pieceBlock = p.pieceBlock) : Laid p' := by
  refine ⟨hsize ▸ h.size_ge, hsize ▸ h.size_le, fun i b hb => ?_, fun i j b c hb hc hij => ?_⟩
  · rw [hblocks] at hb
    obtain ⟨hlow, hhigh, hend, hwithin, hordered, hhead⟩ := h.block i b hb
    exact ⟨hlow, hhigh, by rw [hsize, hend], hwithin, hordered, by rwa [hheader]⟩
  · rw [hblocks] at hb hc
    rw [hsize]
    exact h.apart i j b c hb hc hij

theorem piece_congr (hblocks : p'.blocks = p.blocks) (x : ℕ × ℕ) :
    p'.Piece i x ↔ p.Piece i x := by
  rw [MpPool.Piece, MpPool.Piece, hblocks]

/-- **A changed number of references** to the block of a piece. -/
theorem addRef_spec (h : Laid p) (hstep : p.addRef a n = some p') :
    Laid p' ∧ SameBuckets p p' ∧ (∀ j x, p'.Piece j x ↔ p.Piece j x) ∧
      p'.pieceBlock = p.pieceBlock ∧
      ∃ i, p.pieceBlock a = some i ∧ ∀ j, p'.ref j = p.ref j + if j = i then n else 0 := by
  rw [MpPool.addRef] at hstep
  split at hstep
  · simp at hstep
  · rename_i i hi
    split_ifs at hstep with hlt
    obtain rfl := Option.some.inj hstep
    obtain ⟨b, hb⟩ : ∃ b, p.blocks[i]? = some b := ⟨_, List.getElem?_eq_getElem hlt⟩
    refine ⟨⟨h.size_ge, h.size_le, ?_, ?_⟩, ⟨rfl, rfl, rfl, rfl, rfl⟩, fun j x => ?_, rfl, i, hi,
      fun j => ?_⟩
    · intro j c hc
      obtain ⟨c₀, hc₀, rfl⟩ := getElem?_modify_some hc
      obtain ⟨hlow, hhigh, hend, hwithin, hordered, hhead⟩ := h.block j c₀ hc₀
      split_ifs
      · exact ⟨hlow, hhigh, hend, hwithin, hordered, hhead⟩
      · exact ⟨hlow, hhigh, hend, hwithin, hordered, hhead⟩
    · exact h.apart_modify fun _ => rfl
    · by_cases hij : i = j
      · subst hij
        simp [MpPool.Piece, MpPool.modifyBlock, hb]
      · simp [MpPool.Piece, MpPool.modifyBlock, hij]
    · by_cases hij : i = j
      · subst hij
        simp [MpPool.ref, MpPool.modifyBlock, hb]
      · simp [MpPool.ref, MpPool.modifyBlock, hij, Ne.symm hij]

/-- An emptied block is laid out well. -/
theorem BlockLaid.empty {b : MpBlock} (h : BlockLaid p i b) : BlockLaid p i (emptyBlock b) := by
  have hend := h.size
  refine ⟨le_rfl, ?_, hend, by simp [emptyBlock], by simp [emptyBlock], by simp [emptyBlock]⟩
  change b.addr + sizeofBlock ≤ b.endOfBlock
  omega

/-- **Emptying a block.** -/
theorem emptyBlock_spec (h : Laid p) (current : Option ℕ) :
    Laid { p.modifyBlock i emptyBlock with currentBlock := current } ∧
      (∀ j x, MpPool.Piece { p.modifyBlock i emptyBlock with currentBlock := current } j x ↔
        j ≠ i ∧ p.Piece j x) ∧
      ∀ j, MpPool.ref { p.modifyBlock i emptyBlock with currentBlock := current } j =
        if j = i then 0 else p.ref j := by
  refine ⟨⟨h.size_ge, h.size_le, ?_, ?_⟩, fun j x => ?_, fun j => ?_⟩
  · intro j c hc
    obtain ⟨c₀, hc₀, rfl⟩ := getElem?_modify_some hc
    split_ifs
    · obtain ⟨hlow, hhigh, hend, hwithin, hordered, hhead⟩ := (h.block j c₀ hc₀).empty
      exact ⟨hlow, hhigh, hend, hwithin, hordered, hhead⟩
    · obtain ⟨hlow, hhigh, hend, hwithin, hordered, hhead⟩ := h.block j c₀ hc₀
      exact ⟨hlow, hhigh, hend, hwithin, hordered, hhead⟩
  · exact h.apart_modify fun _ => rfl
  · by_cases hij : i = j
    · subst hij
      cases hb : p.blocks[i]? <;> simp [MpPool.Piece, MpPool.modifyBlock, hb, emptyBlock]
    · simp [MpPool.Piece, MpPool.modifyBlock, hij, Ne.symm hij]
  · by_cases hij : i = j
    · subst hij
      cases hb : p.blocks[i]? <;> simp [MpPool.ref, MpPool.modifyBlock, hb, emptyBlock]
    · simp [MpPool.ref, MpPool.modifyBlock, hij, Ne.symm hij]

/-- **Emptying all blocks.** -/
theorem emptyAll_spec (h : Laid p) (first current : Option ℕ) :
    Laid { p with
        firstBucket := first, blocks := p.blocks.map emptyBlock, currentBlock := current } ∧
      (∀ j x, ¬MpPool.Piece { p with
        firstBucket := first, blocks := p.blocks.map emptyBlock, currentBlock := current } j x) ∧
      ∀ j, MpPool.ref { p with
        firstBucket := first, blocks := p.blocks.map emptyBlock, currentBlock := current } j =
          0 := by
  have hget : ∀ (j : ℕ) (c : MpBlock), (p.blocks.map emptyBlock)[j]? = some c →
      ∃ c₀, p.blocks[j]? = some c₀ ∧ c = emptyBlock c₀ := by
    intro j c hc
    rw [List.getElem?_map] at hc
    obtain ⟨c₀, hc₀, rfl⟩ := Option.map_eq_some_iff.mp hc
    exact ⟨c₀, hc₀, rfl⟩
  refine ⟨⟨h.size_ge, h.size_le, ?_, ?_⟩, ?_, fun j => ?_⟩
  · intro j c hc
    obtain ⟨c₀, hc₀, rfl⟩ := hget j c hc
    obtain ⟨hlow, hhigh, hend, hwithin, hordered, hhead⟩ := (h.block j c₀ hc₀).empty
    exact ⟨hlow, hhigh, hend, hwithin, hordered, hhead⟩
  · intro j k c d hc hd hjk
    obtain ⟨c₀, hc₀, rfl⟩ := hget j c hc
    obtain ⟨d₀, hd₀, rfl⟩ := hget k d hd
    exact h.apart j k c₀ d₀ hc₀ hd₀ hjk
  · rintro j x ⟨c, hc, hx⟩
    obtain ⟨c₀, -, rfl⟩ := hget j c hc
    simp [emptyBlock] at hx
  · cases hb : p.blocks[j]? <;> simp [MpPool.ref, hb, emptyBlock]

/-! ### New pools and requests -/

/-- **A new pool** has one block, which is empty. -/
theorem mpCreatePool_spec {size : ℕ} {autoClear : Bool} {memory : Option ℕ}
    {pieceBlock : ℕ → Option ℕ} {bucketAt : ℕ → MpBucket}
    (h : mpCreatePool size autoClear memory pieceBlock bucketAt = some p) :
    (mpMinBlkSize ≤ p.blockSize ∧ p.blockSize ≤ mpPageSize) ∧ p.currentBlock = some 0 ∧
      p.firstBucket = none ∧ p.autoClear = autoClear ∧ p.heap = [] ∧
      ∃ addr, p.blocks = [initANewBlock p addr] := by
  rw [mpCreatePool] at h
  by_cases hsize : size < mpMinBlkSize
  · rw [if_pos hsize] at h
    exact absurd h (by simp)
  · rw [if_neg hsize] at h
    obtain ⟨addr, -, rfl⟩ := Option.map_eq_some_iff.mp h
    have hpage : mpMinBlkSize ≤ mpPageSize := by decide
    refine ⟨?_, rfl, rfl, rfl, rfl, addr + sizeofPool, rfl⟩
    simp only
    split_ifs <;> omega

/-- **A request** asks for nothing, for a piece or for a bucket. -/
theorem mpMalloc_cases {n size : ℕ} {supply : Supply} {r : Option ℕ}
    (h : mpMalloc n p size supply = some (p', r)) :
    (size = 0 ∧ p' = p ∧ r = none) ∨
    (0 < size ∧ size ≤ p.blockSize ∧ mallocAPiece p size supply.block = some (p', r)) ∨
    (p.blockSize < size ∧ mallocABucket n p size supply = some (p', r)) := by
  rw [mpMalloc] at h
  split_ifs at h with hzero hsize
  · obtain ⟨rfl, rfl⟩ := Prod.mk.inj (Option.some.inj h)
    exact Or.inl ⟨Nat.le_zero.mp hzero, rfl, rfl⟩
  · exact Or.inr (Or.inl ⟨not_le.mp hzero, hsize, h⟩)
  · exact Or.inr (Or.inr ⟨not_le.mp hsize, h⟩)

end

end MemPool

end BackendStudy
