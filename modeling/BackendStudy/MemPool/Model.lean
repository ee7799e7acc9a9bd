import BackendStudy.Lib.Chain
import BackendStudy.Lib.Runs
import Mathlib.Data.List.Basic
import Mathlib.Algebra.Order.Ring.Int

/-!
# The memory pool of `MemPool.c`

A pool is a chain of blocks that are cut into pieces from the front, and a chain of bucket
descriptors for the allocations that are too large for a block. Addresses are numbers, and
the memory the pool works in is kept by kind: the blocks, the header in front of every piece
(`BackendStudy.MemPool.MpPool.pieceBlock`), the descriptors
(`BackendStudy.MemPool.MpPool.bucketAt`), and the large allocations that have not been freed
(`BackendStudy.MemPool.MpPool.heap`).

Blocks are linked in when they are made and stay linked, so the chain of blocks is a list
and a pointer to a block is its place in it. Descriptors live in pieces and are linked
through whatever bytes they find there, so their chain is one of pointers. What the pool does
not decide is an input (`BackendStudy.MemPool.Supply`): what `posix_memalign` answers, and
the bytes that a new descriptor finds in its piece.

A call has no result, `none`, when it follows a pointer that leads nowhere or frees what is
not allocated, and on too little fuel for its loops.
-/

namespace BackendStudy

namespace MemPool

/-- `MP_PAGE_SIZE`. -/
def mpPageSize : ℕ := 4 * 1024

/-- `MP_MIN_BLK_SZIE`. -/
def mpMinBlkSize : ℕ := 128

/-- `MP_MAX_BLOCK_FAIL_TIME`. -/
def mpMaxBlockFailTime : ℤ := 4

/-- `sizeof(MP_BLOCK)`, with pointers of eight bytes. -/
def sizeofBlock : ℕ := 32

/-- `sizeof(MP_PIECE)`. -/
def sizeofPiece : ℕ := 8

/-- `sizeof(MP_BUCKET)`. -/
def sizeofBucket : ℕ := 24

/-- `sizeof(MP_POOL)`. -/
def sizeofPool : ℕ := 32

/-- `MP_BLOCK`, at its address. -/
structure MpBlock where
  /-- The address of the block. -/
  addr : ℕ
  /-- Where the free space starts. -/
  startOfRest : ℕ
  /-- The last address and one. -/
  endOfBlock : ℕ
  /-- The number of requests that did not fit, an `int`. -/
  failedTime : ℤ
  /-- The number of references, of which a page has room for few. -/
  refCounter : ℤ
  /-- The pieces cut since the block was last emptied, newest first, by the address and the
  size of their data. This is a record of the past that no function reads. -/
  pieces : List (ℕ × ℕ)

/-- `MP_BUCKET`. -/
structure MpBucket where
  /-- The next descriptor. -/
  next : Option ℕ
  /-- Whether the bucket is in use. -/
  stillInUse : Bool
  /-- The memory of the bucket. -/
  startOfBucket : Option ℕ

/-- `MP_POOL`, with the memory it works in. -/
structure MpPool where
  /-- The size of the blocks. -/
  blockSize : ℕ
  /-- The chain of blocks. -/
  blocks : List MpBlock
  /-- The block where the search for space starts. -/
  currentBlock : Option ℕ
  /-- The first descriptor. -/
  firstBucket : Option ℕ
  /-- Whether a block is emptied when its last reference goes. -/
  autoClear : Bool
  /-- `piece->block`, by the address of the data of the piece. -/
  pieceBlock : ℕ → Option ℕ
  /-- The descriptors, by their address. -/
  bucketAt : ℕ → MpBucket
  /-- The large allocations that have not been freed, with their sizes. -/
  heap : List (ℕ × ℕ)

/-- What a call finds in its surroundings: the answers of `posix_memalign` to a request for
a block and for a bucket, and the bytes of the piece of a new descriptor. -/
structure Supply where
  /-- Memory for a block. -/
  block : Option ℕ
  /-- Memory for a bucket. -/
  bucket : Option ℕ
  /-- The stale bytes, read as a descriptor. -/
  stale : MpBucket

namespace MpPool

/-! ### Assignments -/

/-- The pool with the block `i` changed. -/
def modifyBlock (pool : MpPool) (i : ℕ) (f : MpBlock → MpBlock) : MpPool :=
  { pool with blocks := pool.blocks.modify i f }

/-- The pool with the descriptor at `a` changed. -/
def setBucket (pool : MpPool) (a : ℕ) (bucket : MpBucket) : MpPool :=
  { pool with bucketAt := Function.update pool.bucketAt a bucket }

/-- `bucket->next = next`. -/
def setNext (pool : MpPool) (a : ℕ) (next : Option ℕ) : MpPool :=
  pool.setBucket a { pool.bucketAt a with next := next }

/-- The links of the descriptors. -/
def nextBucket (pool : MpPool) (a : ℕ) : Option ℕ := (pool.bucketAt a).next

/-- `piece->block->ref_counter += n`, for the piece with the data at `a`. -/
def addRef (pool : MpPool) (a : ℕ) (n : ℤ) : Option MpPool :=
  match pool.pieceBlock a with
  | none => none
  | some i =>
    if i < pool.blocks.length then
      some (pool.modifyBlock i fun b => { b with refCounter := b.refCounter + n })
    else none

/-- `free(bucket->start_of_bucket); bucket->start_of_bucket = NULL`, where the pointer is
not null. -/
def freeBucket (pool : MpPool) (a : ℕ) : Option MpPool :=
  match (pool.bucketAt a).startOfBucket with
  | none => some pool
  | some s =>
    if ∃ r ∈ pool.heap, r.1 = s then
      let pool := { pool with heap := pool.heap.filter (·.1 ≠ s) }
      some (pool.setBucket a { pool.bucketAt a with startOfBucket := none })
    else none

end MpPool

/-! ### Blocks -/

/-- `init_a_new_block`. -/
def initANewBlock (pool : MpPool) (addr : ℕ) : MpBlock where
  addr := addr
  startOfRest := addr + sizeofBlock
  endOfBlock := addr + sizeofBlock + pool.blockSize
  failedTime := 0
  refCounter := 0
  pieces := []

/-- `rest_block_space`, a `size_t`. -/
def restBlockSpace (block : MpBlock) : ℕ :=
  (block.endOfBlock + 2 ^ 64 - block.startOfRest) % 2 ^ 64

/-- `malloc_a_block`: the pool and the place of the new block. The chain is followed to its
end from the current block, which must not be null. -/
def mallocABlock (pool : MpPool) (newblock : Option ℕ) : Option (MpPool × Option ℕ) :=
  match newblock with
  | none => some (pool, none)
  | some addr =>
    match pool.currentBlock with
    | none => none
    | some _ =>
      some ({ pool with blocks := pool.blocks ++ [initANewBlock pool addr] },
        some pool.blocks.length)

/-- The block after one more request that did not fit: `failed_time++`, of an `int`, which wraps
around. -/
def MpBlock.failed (b : MpBlock) : MpBlock :=
  { b with failedTime := (b.failedTime + 1).bmod (2 ^ 32) }

/-- The loop of `malloc_a_piece` over the blocks from the place `i` on: the blocks, the
current block, and the block with enough space. -/
def findBlock (realPieceSize : ℕ) : List MpBlock → ℕ → Option ℕ →
    List MpBlock × Option ℕ × Option ℕ
  | [], _, current => ([], current, none)
  | block :: rest, i, current =>
    if restBlockSpace block ≥ realPieceSize then (block :: rest, current, some i)
    else
      let block := block.failed
      let current :=
        if block.failedTime ≥ mpMaxBlockFailTime then
          if rest.isEmpty then none else some (i + 1)
        else current
      let (rest, current, found) := findBlock realPieceSize rest (i + 1) current
      (block :: rest, current, found)

/-- Cutting a piece from the block `i`: the pool and the address of its data. -/
def cutPiece (pool : MpPool) (i : ℕ) (size : ℕ) : Option (MpPool × ℕ) :=
  match pool.blocks[i]? with
  | none => none
  | some block =>
    let data := block.startOfRest + sizeofPiece
    let pool := pool.modifyBlock i fun b =>
      { b with
        startOfRest := b.startOfRest + (size + sizeofPiece)
        refCounter := b.refCounter + 1
        pieces := (data, size) :: b.pieces }
    some ({ pool with pieceBlock := Function.update pool.pieceBlock data (some i) }, data)

/-- `malloc_a_piece`. -/
def mallocAPiece (pool : MpPool) (size : ℕ) (newblock : Option ℕ) :
    Option (MpPool × Option ℕ) :=
  let start := pool.currentBlock.getD pool.blocks.length
  let (rest, current, found) :=
    findBlock (size + sizeofPiece) (pool.blocks.drop start) start pool.currentBlock
  let pool := { pool with blocks := pool.blocks.take start ++ rest, currentBlock := current }
  match found with
  | some i => (cutPiece pool i size).map fun (pool, data) => (pool, some data)
  | none =>
    (mallocABlock pool newblock).bind fun
      | (pool, none) => some (pool, none)
      | (pool, some i) => (cutPiece pool i size).map fun (pool, data) => (pool, some data)

/-! ### Buckets -/

/-- The end of `malloc_a_bucket`, with a descriptor that holds a reference. -/
def fillBucket (pool : MpPool) (bucket : ℕ) (size : ℕ) (memory : Option ℕ) :
    Option (MpPool × Option ℕ) :=
  match memory with
  | none => (pool.addRef bucket (-1)).map fun pool => (pool, none)
  | some start =>
    let pool := pool.setBucket bucket
      { pool.bucketAt bucket with startOfBucket := some start, stillInUse := true }
    some ({ pool with heap := (start, size) :: pool.heap }, some start)

/-- `malloc_a_bucket`. A new descriptor has its `still_in_use` set; its other bytes are the
stale ones. -/
def mallocABucket (fuel : ℕ) (pool : MpPool) (size : ℕ) (supply : Supply) :
    Option (MpPool × Option ℕ) :=
  (Chain.seek pool.nextBucket (fun a => (pool.bucketAt a).startOfBucket.isNone) fuel
    pool.firstBucket pool.firstBucket).bind fun
    | (none, prevBucket) =>
      (mallocAPiece pool sizeofBucket supply.block).bind fun
        | (pool, none) => some (pool, none)
        | (pool, some bucket) =>
          let pool := pool.setBucket bucket { supply.stale with stillInUse := false }
          let pool :=
            match prevBucket with
            | some prevBucket => pool.setNext prevBucket (some bucket)
            | none => { pool with firstBucket := some bucket }
          fillBucket pool bucket size supply.bucket
    | (some bucket, _) =>
      (pool.addRef bucket 1).bind fun pool => fillBucket pool bucket size supply.bucket

/-- `find_bucket_with_addr`. -/
def findBucketWithAddr (fuel : ℕ) (pool : MpPool) (addr : ℕ) : Option (Option ℕ) :=
  (Chain.seek pool.nextBucket (fun a => (pool.bucketAt a).startOfBucket == some addr) fuel
    pool.firstBucket none).map Prod.fst

/-- One round of the loop of `clear_block`, which unlinks the descriptors in the block `i`:
the state is the pool and the links of the descriptor and of the one before it. -/
def clearStep (i : ℕ) : MpPool × Option ℕ × Option ℕ →
    (MpPool × Option ℕ × Option ℕ) ⊕ Option MpPool
  | (pool, none, _) => .inr (some pool)
  | (pool, some bucket, prevBucket) =>
    if pool.pieceBlock bucket = some i then
      match pool.freeBucket bucket with
      | none => .inr none
      | some pool =>
        let next := pool.nextBucket bucket
        if pool.firstBucket = some bucket then
          .inl ({ pool with firstBucket := next }, next, next)
        else
          match prevBucket with
          | none => .inr none
          | some prevBucket => .inl (pool.setNext prevBucket next, next, some prevBucket)
    else .inl (pool, pool.nextBucket bucket, some bucket)

/-- The last lines of `clear_block`. -/
def emptyBlock (b : MpBlock) : MpBlock :=
  { b with
    refCounter := 0
    failedTime := 0
    startOfRest := b.addr + sizeofBlock
    pieces := [] }

/-- `clear_block`. -/
def clearBlock (fuel : ℕ) (pool : MpPool) (i : ℕ) : Option MpPool :=
  match pool.blocks[i]? with
  | none => none
  | some block =>
    if block.refCounter > 0 then some pool
    else
      ((Loop.run (clearStep i) fuel (pool, pool.firstBucket, pool.firstBucket)).bind id).map
        fun pool => { pool.modifyBlock i emptyBlock with currentBlock := some 0 }

/-! ### The interface -/

/-- `mp_create_pool`, on memory that holds anything: the first block follows the header. -/
def mpCreatePool (size : ℕ) (autoClear : Bool) (memory : Option ℕ)
    (pieceBlock : ℕ → Option ℕ) (bucketAt : ℕ → MpBucket) : Option MpPool :=
  if size < mpMinBlkSize then none
  else memory.map fun addr =>
    let pool : MpPool :=
      { blockSize := if size < mpPageSize then size else mpPageSize
        blocks := []
        currentBlock := some 0
        firstBucket := none
        autoClear := autoClear
        pieceBlock := pieceBlock
        bucketAt := bucketAt
        heap := [] }
    { pool with blocks := [initANewBlock pool (addr + sizeofPool)] }

/-- `mp_malloc`. -/
def mpMalloc (fuel : ℕ) (pool : MpPool) (size : ℕ) (supply : Supply) :
    Option (MpPool × Option ℕ) :=
  if size ≤ 0 then some (pool, none)
  else if size ≤ pool.blockSize then mallocAPiece pool size supply.block
  else mallocABucket fuel pool size supply

/-- `mp_free`, of an address that is not null. -/
def mpFree (fuel : ℕ) (pool : MpPool) (addr : ℕ) : Option MpPool :=
  (findBucketWithAddr fuel pool addr).bind fun bucket =>
    let found : Option (MpPool × ℕ) :=
      match bucket with
      | some bucket => (pool.freeBucket bucket).map fun pool =>
          (pool.setBucket bucket { pool.bucketAt bucket with stillInUse := false }, bucket)
      | none => some (pool, addr)
    found.bind fun (pool, piece) =>
      match pool.pieceBlock piece with
      | none => some pool
      | some i =>
        (pool.addRef piece (-1)).bind fun pool =>
          if pool.autoClear then clearBlock fuel pool i else some pool

/-- One round of the loop of `mp_reset_pool` over the descriptors. -/
def resetStep : MpPool × Option ℕ → (MpPool × Option ℕ) ⊕ Option MpPool
  | (pool, none) => .inr (some pool)
  | (pool, some bucket) =>
    match pool.freeBucket bucket with
    | none => .inr none
    | some pool => .inl (pool, pool.nextBucket bucket)

/-- `mp_reset_pool`. -/
def mpResetPool (fuel : ℕ) (pool : MpPool) : Option MpPool :=
  ((Loop.run resetStep fuel (pool, pool.firstBucket)).bind id).map fun pool =>
    { pool with firstBucket := none, blocks := pool.blocks.map emptyBlock, currentBlock := some 0 }

/-! ### Runs -/

/-- Two stretches of memory that do not meet. -/
def Apart (a m b n : ℕ) : Prop := a + m ≤ b ∨ b + n ≤ a

/-- Memory that is not in use. -/
def MpPool.Unused (pool : MpPool) (a n : ℕ) : Prop :=
  (∀ b ∈ pool.blocks, Apart a n b.addr (sizeofBlock + pool.blockSize)) ∧
    ∀ r ∈ pool.heap, Apart a n r.1 r.2

/-- **What `posix_memalign` promises**: memory that is not in use. -/
structure Supply.Sound (supply : Supply) (pool : MpPool) (size : ℕ) : Prop where
  block : ∀ a, supply.block = some a → pool.Unused a (sizeofBlock + pool.blockSize)
  bucket : ∀ a, supply.bucket = some a → pool.Unused a size

/-- A pool with the allocations its client holds, by address and size. -/
structure Client where
  /-- The pool. -/
  pool : MpPool
  /-- The addresses that `mp_malloc` has returned and that have not been freed. -/
  live : List (ℕ × ℕ)

/-- A call of the interface. -/
inductive Op
  /-- `mp_malloc`. -/
  | malloc (size : ℕ) (supply : Supply)
  /-- `mp_free`. -/
  | free (addr : ℕ)
  /-- `mp_reset_pool`. -/
  | reset

/-- **One call.** The client frees only addresses that it holds. -/
inductive OpStep : Client → Op → Client → Prop
  /-- An allocation. -/
  | malloc {c : Client} {size : ℕ} {supply : Supply} {pool : MpPool} {addr : Option ℕ} :
      supply.Sound c.pool size →
      Loop.Returns (fun n => mpMalloc n c.pool size supply) (pool, addr) →
      OpStep c (.malloc size supply) ⟨pool, (addr.map (·, size)).toList ++ c.live⟩
  /-- A release. -/
  | free {c : Client} {addr : ℕ} {pool : MpPool} : (∃ n, (addr, n) ∈ c.live) →
      Loop.Returns (fun n => mpFree n c.pool addr) pool →
      OpStep c (.free addr) ⟨pool, c.live.filter (·.1 ≠ addr)⟩
  /-- A reset. -/
  | reset {c : Client} {pool : MpPool} : Loop.Returns (fun n => mpResetPool n c.pool) pool →
      OpStep c .reset ⟨pool, []⟩

end MemPool

end BackendStudy
