import Mathlib.Algebra.Group.Nat.Defs
import Mathlib.Logic.Function.Basic

/-!
# The AF_XDP buffer pool and its caches

This file embeds `bpool_init` and the `bcache_*` functions of
`ebpf-xdp/xsk/af_rxtx.c`. The arrays `buffers` and `buffers_reserved` are one
block of 64-bit entries, the second directly after the first, and a slab
pointer is the index in that block of its first entry. An address has 64 bits,
so the index of an entry, which has 8 bytes, wraps at `2 ^ 61`: for parameters
that ask for more entries a reserved slab can be a slab of the pool. Counters
are natural numbers: the 32-bit expressions of `bpool_init` that can wrap keep
their width, and the other counters do not leave theirs. A function returns
`none` when the source indexes an array of slab pointers outside its range.
-/

namespace Hack.Xsk

/-- The fields of `struct bpool_params` that size the pool. -/
structure BpoolParams where
  /-- The number of buffers asked for; the pool stores the rounded-up number. -/
  nBuffers : UInt32
  /-- The size in bytes of one buffer of the shared memory. -/
  bufferSize : UInt32
  /-- The number of caches the pool can serve. -/
  nUsersMax : UInt32
  /-- The number of buffer addresses held by one slab. -/
  nBuffersPerSlab : UInt32

/-- The ring sizes of `struct xsk_umem_config` that the ports read. -/
structure XskUmemConfig where
  /-- The number of entries of a fill queue. -/
  fillSize : UInt32
  /-- The number of entries of a completion queue. -/
  compSize : UInt32

/-- `struct bpool`, with the entry block that its slab pointers point into. -/
structure Bpool where
  /-- The parameters, with the rounded-up number of buffers. -/
  params : BpoolParams
  /-- The slab pointers of the pool; the first available ones are full. -/
  slabs : List ℕ
  /-- The slab pointers lent to caches; the first available ones are not lent. -/
  slabsReserved : List ℕ
  /-- The block of 64-bit entries: `buffers` followed by `buffers_reserved`. -/
  buffers : ℕ → ℕ
  /-- The length of `slabs`. -/
  nSlabs : ℕ
  /-- The length of `slabsReserved`. -/
  nSlabsReserved : ℕ
  /-- The rounded-up number of buffers. -/
  nBuffers : ℕ
  /-- The number of full slabs in the pool. -/
  nSlabsAvailable : ℕ
  /-- The number of reserved slabs not lent to a cache. -/
  nSlabsReservedAvailable : ℕ
  /-- The ring sizes given to `bpool_init`. -/
  umemCfg : XskUmemConfig

/-- `struct bcache`: a consumer slab, a producer slab, and their fill levels. -/
structure Bcache where
  /-- The slab buffers are taken from. -/
  slabCons : ℕ
  /-- The slab buffers are given back to. -/
  slabProd : ℕ
  /-- The number of buffers left in the consumer slab. -/
  nBuffersCons : ℕ
  /-- The number of buffers collected in the producer slab. -/
  nBuffersProd : ℕ

/-- The answers of the operating system during `bpool_init`; the size passed to
each allocating call is visible to it. -/
structure InitEnv where
  /-- Whether `setrlimit` succeeds. -/
  setrlimit : Bool
  /-- The platform's `sizeof(struct bpool)`. -/
  sizeofBpool : ℕ
  /-- Whether `calloc` returns memory for a size. -/
  calloc : ℕ → Bool
  /-- Whether `pthread_mutex_init` succeeds. -/
  pthreadMutexInit : Bool
  /-- Whether `mmap` maps a length. -/
  mmap : ℕ → Bool
  /-- Whether `xsk_umem__create` accepts a length. -/
  xskUmemCreate : ℕ → Bool

/-- The entry of the block that an index leads to, in the arithmetic of 64-bit addresses. -/
def entry (i : ℕ) : ℕ := i % 2 ^ 61

namespace BpoolParams

/-- The number of slabs: `n_buffers + n_buffers_per_slab - 1` wraps at 32 bits. -/
def nSlabs (params : BpoolParams) : ℕ :=
  (params.nBuffers + params.nBuffersPerSlab - 1).toNat / params.nBuffersPerSlab.toNat

/-- The number of reserved slabs: `n_users_max * 2` wraps at 32 bits. -/
def nSlabsReserved (params : BpoolParams) : ℕ := (params.nUsersMax * 2).toNat

/-- The size passed to `calloc`, computed in 64 bits. -/
def totalSize (params : BpoolParams) (sizeofBpool : ℕ) : ℕ :=
  let slabSize := params.nBuffersPerSlab.toNat * 8
  (sizeofBpool + params.nSlabs * 8 + params.nSlabsReserved * 8 +
    params.nSlabs * slabSize + params.nSlabsReserved * slabSize) % 2 ^ 64

/-- The pool that `bpool_init` lays out in the allocated memory. -/
def pool (params : BpoolParams) (umemCfg : XskUmemConfig) : Bpool :=
  let perSlab := params.nBuffersPerSlab.toNat
  let nBuffers := params.nSlabs * perSlab
  { params := { params with nBuffers := UInt32.ofNat nBuffers }
    slabs := (List.range params.nSlabs).map fun i => entry (i * perSlab)
    slabsReserved :=
      (List.range params.nSlabsReserved).map fun i => entry (nBuffers + i * perSlab)
    buffers := fun i => if i < nBuffers then i * params.bufferSize.toNat else 0
    nSlabs := params.nSlabs
    nSlabsReserved := params.nSlabsReserved
    nBuffers := nBuffers
    nSlabsAvailable := params.nSlabs
    nSlabsReservedAvailable := params.nSlabsReserved
    umemCfg := umemCfg }

end BpoolParams

/-- `bpool_init`: `none` is a `NULL` result. A zero slab size divides by zero,
which ends the process before a pool exists. -/
def bpoolInit (env : InitEnv) (params : BpoolParams) (umemCfg : XskUmemConfig) : Option Bpool :=
  if params.nBuffersPerSlab = 0 then none
  else if !env.setrlimit then none
  else if !env.calloc (params.totalSize env.sizeofBpool) then none
  else
    let bp := params.pool umemCfg
    if !env.pthreadMutexInit then none
    else if !env.mmap (bp.nBuffers * params.bufferSize.toNat) then none
    else if !env.xskUmemCreate (bp.params.nBuffers * bp.params.bufferSize).toNat then none
    else some bp

/-- The number of entries of one slab, as the caches read it from the pool. -/
def Bpool.perSlab (bp : Bpool) : ℕ := bp.params.nBuffersPerSlab.toNat

/-- `bcache_slab_size`. -/
def bcacheSlabSize (bp : Bpool) : ℕ := bp.perSlab

/-- `bcache_init`: the last two reserved slabs become the consumer and the
producer slab of the new cache, whose absence is a `NULL` result. -/
def bcacheInit (bp : Bpool) (calloc : Bool) : Option (Bpool × Option Bcache) :=
  if !calloc then some (bp, none)
  else match bp.nSlabsReservedAvailable with
    | 0 => some (bp, none)
    | 1 => none
    | available + 2 => do
      let slabCons ← bp.slabsReserved[available + 1]?
      let slabProd ← bp.slabsReserved[available]?
      return ({ bp with nSlabsReservedAvailable := available }, some ⟨slabCons, slabProd, 0, 0⟩)

/-- `bcache_free`: both slabs go back to the reserve, whatever they contain. -/
def bcacheFree (bp : Bpool) (bc : Bcache) : Option Bpool :=
  let available := bp.nSlabsReservedAvailable
  if available + 1 < bp.slabsReserved.length then
    some { bp with
      slabsReserved := (bp.slabsReserved.set available bc.slabProd).set (available + 1) bc.slabCons
      nSlabsReservedAvailable := available + 2 }
  else none

/-- `bcache_cons_check`: an empty consumer slab is traded for a full slab of the
pool, if there is one. The last component is the returned count. -/
def bcacheConsCheck (bp : Bpool) (bc : Bcache) (nBuffers : ℕ) : Option (Bpool × Bcache × ℕ) :=
  if bc.nBuffersCons ≠ 0 then
    some (bp, bc, if bc.nBuffersCons < nBuffers then bc.nBuffersCons else nBuffers)
  else match bp.nSlabsAvailable with
    | 0 => some (bp, bc, 0)
    | available + 1 => do
      let slabFull ← bp.slabs[available]?
      return ({ bp with slabs := bp.slabs.set available bc.slabCons, nSlabsAvailable := available },
        { bc with slabCons := slabFull, nBuffersCons := bp.perSlab }, nBuffers)

/-- `bcache_cons`: take the last buffer of the consumer slab. On an empty slab
the 64-bit index wraps and the read leaves the entry block. -/
def bcacheCons (bp : Bpool) (bc : Bcache) : Option (ℕ × Bcache) :=
  match bc.nBuffersCons with
  | 0 => none
  | n + 1 => some (bp.buffers (entry (bc.slabCons + n)), { bc with nBuffersCons := n })

/-- `bcache_prod`: append a buffer to the producer slab. A full producer slab is
first traded for the slab at the boundary index of the pool. -/
def bcacheProd (bp : Bpool) (bc : Bcache) (buffer : ℕ) : Option (Bpool × Bcache) :=
  if bc.nBuffersProd < bp.perSlab then
    some ({ bp with
        buffers := Function.update bp.buffers (entry (bc.slabProd + bc.nBuffersProd)) buffer },
      { bc with nBuffersProd := bc.nBuffersProd + 1 })
  else do
    let slabEmpty ← bp.slabs[bp.nSlabsAvailable]?
    return ({ bp with
        slabs := bp.slabs.set bp.nSlabsAvailable bc.slabProd
        nSlabsAvailable := bp.nSlabsAvailable + 1
        buffers := Function.update bp.buffers (entry slabEmpty) buffer },
      { bc with slabProd := slabEmpty, nBuffersProd := 1 })

end Hack.Xsk
