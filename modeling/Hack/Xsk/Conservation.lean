import Hack.Machine
import Hack.Xsk.SlabSteps

/-!
# Conservation of buffers under any interleaving of cache calls

Any number of caches share one pool, and their clients call the cache functions
in any order. A client may take a buffer only from a consumer slab that is not
empty and may give back only a buffer it holds. Every call then keeps the slab
invariant and moves at most one buffer between the stock and the clients. Only
`bcache_free` loses buffers, as its comment in the source says. All this needs
a block of fewer than `2 ^ 64` bytes: the addresses of a larger one wrap.
-/

namespace Hack.Xsk

/-- A pool, its live caches, and the buffers in the hands of the clients. -/
structure PoolSystem where
  /-- The shared pool. -/
  bp : Bpool
  /-- The caches returned by `bcache_init` and not yet freed. -/
  caches : List Bcache
  /-- The buffers that clients have consumed and not yet produced. -/
  held : List ℕ

/-- A whole call of one cache function; a cache is named by its list position. -/
inductive PoolCall
  /-- `bcache_init`, with the outcome of its `calloc`. -/
  | init (calloc : Bool)
  /-- `bcache_cons_check` for a number of buffers. -/
  | consCheck (i nBuffers : ℕ)
  /-- `bcache_cons`, made only when the consumer slab is not empty. -/
  | cons (i : ℕ)
  /-- `bcache_prod` of a buffer that some client holds. -/
  | prod (i buffer : ℕ)
  /-- `bcache_free`. -/
  | free (i : ℕ)

/-- Whether a call is `bcache_free`. -/
def PoolCall.frees : PoolCall → Bool
  | .free _ => true
  | _ => false

/-- The system after a call that its client may make. -/
def PoolSystem.next (st : PoolSystem) : PoolCall → Option PoolSystem
  | .init calloc => do
    let (bp, bc) ← bcacheInit st.bp calloc
    return { st with bp := bp, caches := bc.toList ++ st.caches }
  | .consCheck i nBuffers => do
    let bc ← st.caches[i]?
    let (bp, bc', _) ← bcacheConsCheck st.bp bc nBuffers
    return { st with bp := bp, caches := st.caches.set i bc' }
  | .cons i => do
    let bc ← st.caches[i]?
    let (buffer, bc') ← bcacheCons st.bp bc
    return { st with caches := st.caches.set i bc', held := buffer :: st.held }
  | .prod i buffer => do
    let bc ← st.caches[i]?
    if buffer ∈ st.held then
      let (bp, bc') ← bcacheProd st.bp bc buffer
      return { bp := bp, caches := st.caches.set i bc', held := st.held.erase buffer }
    else none
  | .free i => do
    let bc ← st.caches[i]?
    let bp ← bcacheFree st.bp bc
    return { st with bp := bp, caches := st.caches.eraseIdx i }

/-- The system that starts with a successful `bpool_init` and no cache. -/
def poolMachine (env : InitEnv) (params : BpoolParams) (umemCfg : XskUmemConfig) :
    Machine PoolSystem PoolCall where
  start st := ∃ bp, bpoolInit env params umemCfg = some bp ∧ st = ⟨bp, [], []⟩
  next := PoolSystem.next

/-- All places of a buffer: full slabs, used parts of cache slabs, and clients. -/
def PoolSystem.inventory (st : PoolSystem) : List ℕ := stock st.bp st.caches ++ st.held

/-- The number of slabs that have room for the buffers. -/
def BpoolParams.slabsNeeded (params : BpoolParams) : ℕ :=
  (params.nBuffers.toNat + params.nBuffersPerSlab.toNat - 1) / params.nBuffersPerSlab.toNat

/-- The size of the block of the pool, as a number. -/
def BpoolParams.blockSize (params : BpoolParams) (sizeofBpool : ℕ) : ℕ :=
  sizeofBpool + (params.slabsNeeded + 2 * params.nUsersMax.toNat % 2 ^ 32) *
    (8 + params.nBuffersPerSlab.toNat * 8)

/-- The buffer addresses written by `bpool_init`. -/
def BpoolParams.addresses (params : BpoolParams) : List ℕ :=
  (List.range (params.nSlabs * params.nBuffersPerSlab.toNat)).map
    fun i => i * params.bufferSize.toNat

section Steps

variable {st st' : PoolSystem} {call : PoolCall} {i : ℕ} {bc : Bcache}

/-- Focus on the cache of a call: the invariant and the stock with it in front. -/
theorem PoolSystem.focus (hinv : SlabInv st.bp st.caches) (hget : st.caches[i]? = some bc) :
    SlabInv st.bp (bc :: st.caches.eraseIdx i) ∧
      (stock st.bp st.caches).Perm (stock st.bp (bc :: st.caches.eraseIdx i)) :=
  ⟨hinv.perm (Custody.perm_cons_eraseIdx hget), stock_perm (Custody.perm_cons_eraseIdx hget)⟩

/-- A buffer held by a client leaves room for itself in the slabs. -/
theorem PoolSystem.stock_lt_of_held {buffer bound : ℕ} (hget : st.caches[i]? = some bc)
    (hroom : st.inventory.length ≤ bound) (hheld : buffer ∈ st.held) :
    (stock st.bp (bc :: st.caches.eraseIdx i)).length < bound := by
  have hpos := List.length_pos_of_mem hheld
  have hold : (stock st.bp st.caches).Perm (stock st.bp (bc :: st.caches.eraseIdx i)) :=
    stock_perm (Custody.perm_cons_eraseIdx hget)
  rw [inventory, List.length_append, hold.length_eq] at hroom
  omega

/-- Every call keeps the slab invariant and the dimensions of the pool. Buffers
change places, and only `bcache_free` loses some. -/
theorem PoolSystem.next_spec (hinv : SlabInv st.bp st.caches)
    (hroom : st.inventory.length ≤ st.bp.nSlabs * st.bp.perSlab)
    (hnext : st.next call = some st') :
    SlabInv st'.bp st'.caches ∧ SameShape st.bp st'.bp ∧
      ∃ lost, st.inventory.Perm (lost ++ st'.inventory) ∧ (call.frees = false → lost = []) := by
  cases call with
  | init calloc =>
    simp only [next, Option.bind_eq_bind, Option.bind_eq_some_iff, Option.pure_def,
      Option.some.injEq, Prod.exists] at hnext
    obtain ⟨bp', bc, hinit, rfl⟩ := hnext
    cases bc with
    | none =>
      rw [bcacheInit_none hinit]
      exact ⟨hinv, .refl _, [], .refl _, fun _ => rfl⟩
    | some bc =>
      obtain ⟨hinv', hshape, -, hstock⟩ := bcacheInit_spec hinv hinit
      refine ⟨hinv', hshape, [], ?_, fun _ => rfl⟩
      simp only [inventory, Option.toList_some, List.cons_append, List.nil_append, hstock]
      exact .refl _
  | consCheck i nBuffers =>
    simp only [next, Option.bind_eq_bind, Option.bind_eq_some_iff, Option.pure_def,
      Option.some.injEq, Prod.exists] at hnext
    obtain ⟨bc, hget, bp', bc', count, hcheck, rfl⟩ := hnext
    obtain ⟨hfront, hold⟩ := focus hinv hget
    obtain ⟨hinv', hshape, -, hstock⟩ := bcacheConsCheck_spec hfront hcheck
    have hset := (Custody.set_perm_cons_eraseIdx hget bc').symm
    refine ⟨hinv'.perm hset, hshape, [], ?_, fun _ => rfl⟩
    exact ((hold.trans hstock.symm).trans (stock_perm hset)).append_right _
  | cons i =>
    simp only [next, Option.bind_eq_bind, Option.bind_eq_some_iff, Option.pure_def,
      Option.some.injEq, Prod.exists] at hnext
    obtain ⟨bc, hget, buffer, bc', hcons, rfl⟩ := hnext
    obtain ⟨hfront, hold⟩ := focus hinv hget
    obtain ⟨hinv', -, hstock⟩ := bcacheCons_spec hfront hcons
    have hset := (Custody.set_perm_cons_eraseIdx hget bc').symm
    refine ⟨hinv'.perm hset, .refl _, [], ?_, fun _ => rfl⟩
    have htake := ((hold.trans hstock).trans ((stock_perm hset).cons _)).append_right st.held
    exact htake.trans List.perm_middle.symm
  | prod i buffer =>
    simp only [next, Option.bind_eq_bind, Option.bind_eq_some_iff,
      Option.ite_none_right_eq_some, Option.pure_def, Option.some.injEq, Prod.exists] at hnext
    obtain ⟨bc, hget, hheld, bp', bc', hprod, rfl⟩ := hnext
    obtain ⟨hfront, hold⟩ := focus hinv hget
    have hlt := stock_lt_of_held hget hroom hheld
    obtain ⟨hinv', hshape, -, hstock⟩ := bcacheProd_spec hfront hlt hprod
    have hset := (Custody.set_perm_cons_eraseIdx hget bc').symm
    refine ⟨hinv'.perm hset, hshape, [], ?_, fun _ => rfl⟩
    have hgive := (hold.append_right st.held).trans
      ((List.perm_cons_erase hheld).append_left _)
    have htake := (hstock.symm.trans (stock_perm hset)).append_right (st.held.erase buffer)
    exact (hgive.trans List.perm_middle).trans htake
  | free i =>
    simp only [next, Option.bind_eq_bind, Option.bind_eq_some_iff, Option.pure_def,
      Option.some.injEq] at hnext
    obtain ⟨bc, hget, bp', hfree, rfl⟩ := hnext
    obtain ⟨hfront, hold⟩ := focus hinv hget
    obtain ⟨hinv', hshape, hstock⟩ := bcacheFree_spec hfront hfree
    refine ⟨hinv', hshape, bc.content st.bp.buffers, ?_, fun h => by cases h⟩
    rw [inventory, inventory, ← List.append_assoc]
    exact (hold.trans hstock).append_right _

end Steps

section Start

variable {env : InitEnv} {params : BpoolParams} {umemCfg : XskUmemConfig} {sizeofBpool : ℕ}

/-- A pool returned by `bpool_init` is the laid-out pool, with non-empty slabs. -/
theorem bpoolInit_eq_some {bp : Bpool} (hinit : bpoolInit env params umemCfg = some bp) :
    bp = params.pool umemCfg ∧ 0 < params.nBuffersPerSlab.toNat := by
  unfold bpoolInit at hinit
  split at hinit
  · cases hinit
  next hslab =>
    refine ⟨?_, ?_⟩
    · simp only [Option.ite_none_left_eq_some, Option.some.injEq] at hinit
      exact hinit.2.2.2.2.2.symm
    · have hne : params.nBuffersPerSlab.toNat ≠ 0 := by
        intro hzero
        exact hslab (UInt32.toNat_inj.mp hzero)
      omega

/-- The rounded-up number of buffers has 32 bits. -/
theorem nSlabs_mul_lt (params : BpoolParams) :
    params.nSlabs * params.nBuffersPerSlab.toNat < 2 ^ 32 := by
  have hle : params.nSlabs * params.nBuffersPerSlab.toNat ≤
      (params.nBuffers + params.nBuffersPerSlab - 1).toNat := Nat.div_mul_le_self _ _
  exact Nat.lt_of_le_of_lt hle (UInt32.toNat_lt _)

/-- The number of reserved slabs. -/
theorem nSlabsReserved_eq (params : BpoolParams) :
    params.nSlabsReserved = 2 * params.nUsersMax.toNat % 2 ^ 32 := by
  rw [BpoolParams.nSlabsReserved, UInt32.toNat_mul, Nat.mul_comm]
  rfl

/-- A sum that wraps gives fewer slabs. -/
theorem nSlabs_le (hpos : 0 < params.nBuffersPerSlab.toNat) :
    params.nSlabs ≤ params.slabsNeeded := by
  refine Nat.div_le_div_right ?_
  rw [UInt32.toNat_sub, UInt32.toNat_add, show (1 : UInt32).toNat = 1 from rfl]
  omega

/-- No index of an entry wraps in a block of fewer than `2 ^ 64` bytes. -/
theorem BpoolParams.entries_le (hpos : 0 < params.nBuffersPerSlab.toNat)
    (hfits : params.blockSize sizeofBpool < 2 ^ 64) :
    (params.nSlabs + params.nSlabsReserved) * params.nBuffersPerSlab.toNat ≤ 2 ^ 61 := by
  have hle := Nat.mul_le_mul_right params.nBuffersPerSlab.toNat
    (Nat.add_le_add_right (nSlabs_le hpos) params.nSlabsReserved)
  rw [blockSize, ← nSlabsReserved_eq, Nat.mul_add, ← Nat.mul_assoc] at hfits
  omega

/-- Consecutive slabs list consecutive entries of the block. -/
theorem flatMap_slabEntries_range (buffers : ℕ → ℕ) {p k : ℕ} (hfits : k * p ≤ 2 ^ 61) :
    ((List.range k).map fun i => entry (i * p)).flatMap (fun slab => slabEntries buffers slab p) =
      (List.range (k * p)).map buffers := by
  induction k with
  | zero => simp
  | succ k ih =>
    rw [Nat.succ_mul] at hfits ⊢
    rw [List.range_succ, List.map_append, List.flatMap_append, ih (by omega), List.range_add,
      List.map_append]
    congr 1
    simp only [List.map_cons, List.map_nil, List.flatMap_cons, List.flatMap_nil, List.append_nil,
      slabEntries, List.map_map]
    refine List.map_congr_left fun i hi => congrArg buffers ?_
    have hlt := List.mem_range.mp hi
    rw [entry_of_lt (i := k * p) (by omega), entry_of_lt (by omega)]

/-- The laid-out pool holds each buffer address once, in address order. -/
theorem BpoolParams.pool_stock (params : BpoolParams) (umemCfg : XskUmemConfig) :
    stock (params.pool umemCfg) [] = params.addresses := by
  have hlt := nSlabs_mul_lt params
  have htake : ((List.range params.nSlabs).map
      fun i => entry (i * params.nBuffersPerSlab.toNat)).take params.nSlabs =
        (List.range params.nSlabs).map fun i => entry (i * params.nBuffersPerSlab.toNat) :=
    List.take_of_length_le (by simp)
  simp only [stock, Bpool.fullBuffers, Bpool.perSlab, pool, htake, List.flatMap_nil,
    List.append_nil, addresses]
  rw [flatMap_slabEntries_range _ (by omega)]
  apply List.map_congr_left
  intro i hi
  rw [if_pos (List.mem_range.mp hi)]

/-- The laid-out pool satisfies the slab invariant before any cache exists. -/
theorem BpoolParams.pool_slabInv (hpos : 0 < params.nBuffersPerSlab.toNat)
    (hfits : params.blockSize sizeofBpool < 2 ^ 64) : SlabInv (params.pool umemCfg) [] where
  perSlab_pos := hpos
  fits := entries_le hpos hfits
  slabs_length := by simp [pool]
  reserved_length := by simp [pool]
  available_le := le_rfl
  reserved_balance := rfl
  reserved_even := by
    simp only [pool, nSlabsReserved, UInt32.toNat_mul, UInt32.reduceToNat]
    rw [Nat.even_iff]
    omega
  pointers_perm := by
    apply List.Perm.of_eq
    have htake : ∀ f : ℕ → ℕ, ((List.range params.nSlabsReserved).map f).take
        params.nSlabsReserved = (List.range params.nSlabsReserved).map f :=
      fun f => List.take_of_length_le (by simp)
    simp only [slabPointers, Bpool.layout, Bpool.perSlab, pool, htake, List.flatMap_nil,
      List.append_nil, List.range_add, List.map_append, List.map_map]
    congr 1
    apply List.map_congr_left
    intro i _
    simp only [Function.comp_apply, Nat.add_mul]
  cons_le := by simp
  prod_le := by simp

/-- Distinct buffers have distinct addresses. -/
theorem BpoolParams.addresses_nodup (hsize : 0 < params.bufferSize.toNat) :
    params.addresses.Nodup := by
  apply List.Nodup.map _ List.nodup_range
  intro a b hab
  exact Nat.eq_of_mul_eq_mul_right hsize hab

end Start

/-- What every run of calls keeps: the slab invariant, the dimensions chosen by
`bpool_init`, and that no buffer is in two places. -/
structure PoolSystem.Inv (params : BpoolParams) (st : PoolSystem) : Prop where
  /-- Positions, counters, and slab pointers fit together. -/
  slabs : SlabInv st.bp st.caches
  /-- The number of slabs is the initial one. -/
  nSlabs_eq : st.bp.nSlabs = params.nSlabs
  /-- The slab size is the initial one. -/
  perSlab_eq : st.bp.perSlab = params.nBuffersPerSlab.toNat
  /-- The number of buffers is the initial one. -/
  nBuffers_eq : st.bp.nBuffers = params.nSlabs * params.nBuffersPerSlab.toNat
  /-- No buffer occurs more often than `bpool_init` wrote it. -/
  subperm : st.inventory.Subperm params.addresses

namespace PoolSystem.Inv

variable {env : InitEnv} {params : BpoolParams} {umemCfg : XskUmemConfig} {st st' : PoolSystem}
  {call : PoolCall}

/-- The buffers in the system fit into the slabs of the pool. -/
theorem inventory_length_le (hinv : st.Inv params) :
    st.inventory.length ≤ st.bp.nSlabs * st.bp.perSlab := by
  have hlength := hinv.subperm.length_le
  rw [hinv.nSlabs_eq, hinv.perSlab_eq]
  simpa [BpoolParams.addresses] using hlength

/-- The fresh pool satisfies the invariant and holds every buffer once. -/
theorem of_start (hfits : params.blockSize env.sizeofBpool < 2 ^ 64)
    (hstart : (poolMachine env params umemCfg).start st) :
    st.Inv params ∧ st.inventory = params.addresses := by
  obtain ⟨bp, hinit, rfl⟩ := hstart
  obtain ⟨rfl, hpos⟩ := bpoolInit_eq_some hinit
  have hinventory : inventory ⟨params.pool umemCfg, [], []⟩ = params.addresses := by
    rw [inventory, BpoolParams.pool_stock, List.append_nil]
  refine ⟨⟨BpoolParams.pool_slabInv hpos hfits, rfl, rfl, rfl, ?_⟩, hinventory⟩
  rw [hinventory]

/-- Every call keeps the invariant. -/
theorem next (hinv : st.Inv params) (hnext : st.next call = some st') : st'.Inv params := by
  obtain ⟨hslabs, hshape, lost, hlost, -⟩ :=
    next_spec hinv.slabs hinv.inventory_length_le hnext
  refine ⟨hslabs, hshape.nSlabs_eq.trans hinv.nSlabs_eq, hshape.perSlab_eq.trans hinv.perSlab_eq,
    hshape.nBuffers_eq.trans hinv.nBuffers_eq, ?_⟩
  have hkept : st'.inventory.Subperm (lost ++ st'.inventory) :=
    (List.sublist_append_right _ _).subperm
  exact (hkept.trans hlost.symm.subperm).trans hinv.subperm

/-- The invariant holds in every reachable state. -/
theorem of_reachable (hfits : params.blockSize env.sizeofBpool < 2 ^ 64)
    (hreach : (poolMachine env params umemCfg).Reachable st) : st.Inv params :=
  hreach.invariant (PoolSystem.Inv params) (fun _ hs => (of_start hfits hs).1)
    (fun _ _ _ hinv _ hnext => hinv.next hnext)

/-- Without `bcache_free` no buffer is ever lost. -/
theorem perm_of_reachable (hfits : params.blockSize env.sizeofBpool < 2 ^ 64)
    (hreach : (poolMachine env params umemCfg).ReachableUnder
      (fun _ call => call.frees = false) st) :
    st.Inv params ∧ st.inventory.Perm params.addresses := by
  refine hreach.invariant (fun st => st.Inv params ∧ st.inventory.Perm params.addresses) ?_ ?_
  · intro s hs
    obtain ⟨hinv, heq⟩ := of_start hfits hs
    exact ⟨hinv, heq ▸ .refl _⟩
  · rintro s call s' ⟨hinv, hperm⟩ hkeep hnext
    obtain ⟨-, -, lost, hlost, hnone⟩ := next_spec hinv.slabs hinv.inventory_length_le hnext
    rw [hnone hkeep, List.nil_append] at hlost
    exact ⟨hinv.next hnext, hlost.symm.trans hperm⟩

/-- Every slab pointer of the layout is in exactly one place. -/
theorem slab_count_eq_one (hinv : st.Inv params) {slab : ℕ} (hslab : slab ∈ st.bp.layout) :
    (slabPointers st.bp st.caches).count slab = 1 :=
  List.count_eq_one_of_mem hinv.slabs.pointers_nodup
    (hinv.slabs.pointers_perm.mem_iff.mpr hslab)

/-- The full slabs exist in the pool array. -/
theorem available_le_length (hinv : st.Inv params) :
    st.bp.nSlabsAvailable ≤ st.bp.slabs.length := by
  rw [hinv.slabs.slabs_length]
  exact hinv.slabs.available_le

/-- Whatever is stored in a place of the inventory is one of the buffers. -/
theorem exists_index (hinv : st.Inv params) {buffer : ℕ} (hbuffer : buffer ∈ st.inventory) :
    ∃ i < st.bp.nBuffers, buffer = i * params.bufferSize.toNat := by
  obtain ⟨i, hi, rfl⟩ := List.mem_map.mp (hinv.subperm.subset hbuffer)
  exact ⟨i, by rw [hinv.nBuffers_eq]; exact List.mem_range.mp hi, rfl⟩

end PoolSystem.Inv

/-- Buffers and slabs are conserved in a block of fewer than `2 ^ 64` bytes.
Without `bcache_free` every buffer address is in exactly one full slab, cache
slab, or client's hand; with it, in at most one. Every slab pointer stays in
exactly one place in both cases. -/
theorem bpool_conserves_buffers (env : InitEnv) (params : BpoolParams)
    (umemCfg : XskUmemConfig) (hsize : 0 < params.bufferSize.toNat)
    (hfits : params.blockSize env.sizeofBpool < 2 ^ 64) :
    (∀ st, (poolMachine env params umemCfg).ReachableUnder
        (fun _ call => call.frees = false) st →
      st.bp.nSlabsAvailable ≤ st.bp.slabs.length ∧
      (∀ i < st.bp.nBuffers, st.inventory.count (i * params.bufferSize.toNat) = 1) ∧
      (∀ buffer ∈ st.inventory, ∃ i < st.bp.nBuffers, buffer = i * params.bufferSize.toNat) ∧
      ∀ slab ∈ st.bp.layout, (slabPointers st.bp st.caches).count slab = 1) ∧
    (∀ st, (poolMachine env params umemCfg).Reachable st →
      st.bp.nSlabsAvailable ≤ st.bp.slabs.length ∧
      (∀ i < st.bp.nBuffers, st.inventory.count (i * params.bufferSize.toNat) ≤ 1) ∧
      (∀ buffer ∈ st.inventory, ∃ i < st.bp.nBuffers, buffer = i * params.bufferSize.toNat) ∧
      ∀ slab ∈ st.bp.layout, (slabPointers st.bp st.caches).count slab = 1) := by
  have hnodup := BpoolParams.addresses_nodup hsize
  constructor
  · intro st hreach
    obtain ⟨hinv, hperm⟩ := PoolSystem.Inv.perm_of_reachable hfits hreach
    refine ⟨hinv.available_le_length, ?_, fun _ => hinv.exists_index,
      fun _ => hinv.slab_count_eq_one⟩
    intro i hi
    rw [hinv.nBuffers_eq] at hi
    rw [hperm.count_eq]
    exact List.count_eq_one_of_mem hnodup (List.mem_map.mpr ⟨i, List.mem_range.mpr hi, rfl⟩)
  · intro st hreach
    have hinv := PoolSystem.Inv.of_reachable hfits hreach
    refine ⟨hinv.available_le_length, ?_, fun _ => hinv.exists_index,
      fun _ => hinv.slab_count_eq_one⟩
    intro i _
    exact (hinv.subperm.count_le _).trans (List.nodup_iff_count_le_one.mp hnodup _)

/-- An operating system that grants every request of `bpool_init`. -/
def InitEnv.granting : InitEnv := ⟨true, 256, fun _ => true, true, fun _ => true, fun _ => true⟩

/-- Three buffers in three slabs of one entry, for up to two caches. -/
def BpoolParams.tiny : BpoolParams := ⟨3, 2048, 2, 1⟩

/-- Rings of one entry. -/
def XskUmemConfig.tiny : XskUmemConfig := ⟨1, 1⟩

/-- One cache consumes a buffer, gives it back, and consumes another. -/
def PoolCall.tinyRun : List PoolCall :=
  [.init true, .consCheck 0 1, .cons 0, .prod 0 4096, .consCheck 0 1, .cons 0]

/-- The tiny run frees no cache and ends with one cache, whose producer slab is full,
and with one buffer in a client's hand. -/
theorem PoolCall.tinyRun_eq : ∃ st bc,
    (poolMachine .granting .tiny .tiny).ReachableUnder (fun _ call => call.frees = false) st ∧
      st.held = [2048] ∧ st.bp.nBuffers = 3 ∧ st.caches[0]? = some bc ∧
      bc.nBuffersProd = st.bp.perSlab := by
  have hrun : ∃ st bc, ((poolMachine .granting .tiny .tiny).guarded fun _ call => !call.frees).run
      ⟨BpoolParams.tiny.pool .tiny, [], []⟩ tinyRun = some st ∧ st.held = [2048] ∧
      st.bp.nBuffers = 3 ∧ st.caches[0]? = some bc ∧ bc.nBuffersProd = st.bp.perSlab :=
    ⟨_, _, rfl, rfl, rfl, rfl, rfl⟩
  obtain ⟨st, bc, hrun, hst⟩ := hrun
  refine ⟨st, bc, .of_guarded_run (.start ⟨_, rfl, rfl⟩) ?_ hrun, hst⟩
  intro _ call h
  simpa using h

/-- After the tiny run all three buffers are accounted for, one of them held. -/
theorem bpool_conserves_buffers_tiny : ∃ st,
    (poolMachine .granting .tiny .tiny).ReachableUnder (fun _ call => call.frees = false) st ∧
      st.held = [2048] ∧ ∀ i < 3, st.inventory.count (i * 2048) = 1 := by
  obtain ⟨st, bc, hreach, hheld, hbuffers, -⟩ := PoolCall.tinyRun_eq
  obtain ⟨-, hcount, -⟩ := (bpool_conserves_buffers .granting .tiny .tiny (by decide)
    (by decide)).1 st hreach
  rw [hbuffers] at hcount
  exact ⟨st, hreach, hheld, hcount⟩

/-- Three slabs of `2 ^ 30` entries, for up to `2 ^ 30` caches: the reserved slabs have `2 ^ 64`
bytes, so that the last three of them are the slabs of the pool. -/
def BpoolParams.wrapping : BpoolParams := ⟨0x80000001, 1, 0x40000000, 0x40000000⟩

/-- The slabs of the wrapping pool. -/
theorem BpoolParams.wrapping_slabs (umemCfg : XskUmemConfig) :
    (wrapping.pool umemCfg).slabs = [0, 2 ^ 30, 2 ^ 31] := by
  have hslabs : wrapping.nSlabs = 3 := by decide
  simp only [pool, hslabs]
  decide

/-- The reserved slabs of the wrapping pool. -/
theorem BpoolParams.wrapping_reserved (umemCfg : XskUmemConfig) {i : ℕ} (hi : i < 2 ^ 31) :
    (wrapping.pool umemCfg).slabsReserved[i]? = some (entry ((3 + i) * 2 ^ 30)) := by
  have hslabs : wrapping.nSlabs = 3 := by decide
  have hreserved : wrapping.nSlabsReserved = 2 ^ 31 := by decide
  have hper : wrapping.nBuffersPerSlab.toNat = 2 ^ 30 := by decide
  simp only [pool, hslabs, hreserved, hper]
  rw [List.getElem?_map, List.getElem?_range hi, Option.map_some, Nat.add_mul]

/-- A reserved slab of the wrapping pool is a slab of the pool from the start. -/
theorem slab_in_two_places : ∃ st, (poolMachine .granting .wrapping .tiny).Reachable st ∧
    ∃ slab ∈ st.bp.layout, 1 < (slabPointers st.bp st.caches).count slab := by
  refine ⟨⟨BpoolParams.wrapping.pool .tiny, [], []⟩, .start ⟨_, rfl, rfl⟩, 2 ^ 31, ?_, ?_⟩
  · exact List.mem_map.mpr ⟨2, List.mem_range.mpr (by decide), by decide⟩
  · have hpool : 2 ^ 31 ∈ (BpoolParams.wrapping.pool .tiny).slabs := by
      rw [BpoolParams.wrapping_slabs]
      decide
    have hreserved : 2 ^ 31 ∈ (BpoolParams.wrapping.pool .tiny).slabsReserved.take
        (BpoolParams.wrapping.pool .tiny).nSlabsReservedAvailable := by
      rw [List.take_of_length_le (by simp [BpoolParams.pool])]
      exact List.mem_of_getElem? (BpoolParams.wrapping_reserved .tiny (i := 2 ^ 31 - 1) (by decide))
    simp only [slabPointers, List.count_append]
    have hfirst := List.count_pos_iff.mpr hpool
    have hsecond := List.count_pos_iff.mpr hreserved
    omega

/-- A full producer slab always finds an empty slab, in a block of fewer than
`2 ^ 64` bytes: the boundary index of the pool is in range, and the slab there
is neither full nor reserved nor used by any cache. -/
theorem bcacheProd_finds_empty_slab (env : InitEnv) (params : BpoolParams)
    (umemCfg : XskUmemConfig) {st : PoolSystem} {i buffer : ℕ} {bc : Bcache}
    (hfits : params.blockSize env.sizeofBpool < 2 ^ 64)
    (hreach : (poolMachine env params umemCfg).Reachable st)
    (hget : st.caches[i]? = some bc) (hheld : buffer ∈ st.held)
    (hfull : bc.nBuffersProd = st.bp.perSlab) :
    st.bp.nSlabsAvailable < st.bp.nSlabs ∧ ∃ slab, st.bp.slabs[st.bp.nSlabsAvailable]? = some slab ∧
        slab ∉ st.bp.slabs.take st.bp.nSlabsAvailable ∧
        slab ∉ st.bp.slabsReserved.take st.bp.nSlabsReservedAvailable ∧
        ∀ other ∈ st.caches, slab ≠ other.slabCons ∧ slab ≠ other.slabProd := by
  have hinv := PoolSystem.Inv.of_reachable hfits hreach
  have hroom := PoolSystem.stock_lt_of_held hget hinv.inventory_length_le hheld
  have hlt := (PoolSystem.focus hinv.slabs hget).1.available_lt hfull hroom
  have hindex : st.bp.nSlabsAvailable < st.bp.slabs.length := by
    rw [hinv.slabs.slabs_length]
    exact hlt
  have hslab := List.getElem?_eq_getElem hindex
  obtain ⟨hnotFull, hnotReserved, hnotCached⟩ := hinv.slabs.boundary_fresh hslab
  refine ⟨hlt, _, hslab, hnotFull, hnotReserved, ?_⟩
  intro other hother
  constructor <;> intro heq <;>
    exact hnotCached (List.mem_flatMap.mpr ⟨other, hother, by simp [heq]⟩)

/-- In the tiny run the producer slab is full while a buffer is held, and the
boundary slab of the pool is free for the trade. -/
theorem bcacheProd_finds_empty_slab_tiny : ∃ st, (poolMachine .granting .tiny .tiny).Reachable st ∧
      (∃ bc, st.caches[0]? = some bc ∧ bc.nBuffersProd = st.bp.perSlab) ∧
      st.bp.nSlabsAvailable < st.bp.nSlabs := by
  obtain ⟨st, bc, hreach, hheld, -, hget, hfull⟩ := PoolCall.tinyRun_eq
  have hempty := bcacheProd_finds_empty_slab .granting .tiny .tiny (by decide)
    hreach.reachable hget (hheld ▸ List.mem_cons_self) hfull
  exact ⟨st, hreach.reachable, ⟨bc, hget, hfull⟩, hempty.1⟩

/-- The client of a single cache gives back at once each of `n` buffers that it takes. -/
theorem reachable_of_returns {env : InitEnv} {params : BpoolParams} {umemCfg : XskUmemConfig}
    {bp : Bpool} {slabCons slabProd k j : ℕ} (n : ℕ) (hle : j + n ≤ bp.perSlab)
    (hreach : (poolMachine env params umemCfg).Reachable
      ⟨bp, [⟨slabCons, slabProd, k + n, j⟩], []⟩) :
    ∃ buffers, (poolMachine env params umemCfg).Reachable
      ⟨{ bp with buffers := buffers }, [⟨slabCons, slabProd, k, j + n⟩], []⟩ := by
  induction n generalizing bp j with
  | zero => exact ⟨bp.buffers, hreach⟩
  | succ n ih =>
    have htaken : (poolMachine env params umemCfg).Reachable ⟨bp,
        [⟨slabCons, slabProd, k + n, j⟩], [bp.buffers (entry (slabCons + (k + n)))]⟩ :=
      hreach.step (.cons 0) rfl
    generalize bp.buffers (entry (slabCons + (k + n))) = buffer at htaken
    have hreturned : (poolMachine env params umemCfg).next
        ⟨bp, [⟨slabCons, slabProd, k + n, j⟩], [buffer]⟩ (.prod 0 buffer) =
          some ⟨{ bp with buffers := Function.update bp.buffers (entry (slabProd + j)) buffer },
            [⟨slabCons, slabProd, k + n, j + 1⟩], []⟩ := by
      simp [poolMachine, PoolSystem.next, bcacheProd, show j < bp.perSlab by omega]
    obtain ⟨buffers, hlast⟩ := ih (by show j + 1 + n ≤ bp.perSlab; omega)
      (htaken.step _ hreturned)
    refine ⟨buffers, ?_⟩
    rwa [Nat.add_right_comm, Nat.add_assoc] at hlast

/-- The first cache of a pool whose last reserved slabs are its own slabs fills its producer slab,
and the second one takes a slab of the pool and a buffer of it: the slab at the boundary is then
still one of the full ones. -/
theorem reachable_boundary_full {env : InitEnv} {params : BpoolParams} {umemCfg : XskUmemConfig}
    {bp : Bpool} {a b c d n : ℕ} (hslabs : bp.slabs = [a, b, c]) (hfull : bp.nSlabsAvailable = 3)
    (havailable : bp.nSlabsReservedAvailable = n + 4) (hper : 0 < bp.perSlab)
    (ha : bp.slabsReserved[n + 1]? = some a) (hb : bp.slabsReserved[n + 2]? = some b)
    (hc : bp.slabsReserved[n + 3]? = some c) (hd : bp.slabsReserved[n]? = some d)
    (hreach : (poolMachine env params umemCfg).Reachable ⟨bp, [], []⟩) :
    ∃ st bc buffer slab, (poolMachine env params umemCfg).Reachable st ∧
      st.caches[1]? = some bc ∧ buffer ∈ st.held ∧ bc.nBuffersProd = st.bp.perSlab ∧
      st.bp.slabs[st.bp.nSlabsAvailable]? = some slab ∧
      slab ∈ st.bp.slabs.take st.bp.nSlabsAvailable := by
  have hfirst : (poolMachine env params umemCfg).run ⟨bp, [], []⟩ [.init true, .consCheck 0 1] =
      some ⟨{ bp with slabs := [a, b, c], nSlabsAvailable := 2, nSlabsReservedAvailable := n + 2 },
        [⟨c, b, 0 + bp.perSlab, 0⟩], []⟩ := by
    simp [Machine.run, poolMachine, PoolSystem.next, bcacheInit, bcacheConsCheck, Bpool.perSlab,
      hslabs, hfull, havailable, hb, hc]
  obtain ⟨buffers, hreturned⟩ := reachable_of_returns bp.perSlab (by simp [Bpool.perSlab])
    (.of_run hreach hfirst)
  obtain ⟨k, hk⟩ : ∃ k, bp.params.nBuffersPerSlab.toNat = k + 1 :=
    Nat.exists_eq_succ_of_ne_zero (Nat.pos_iff_ne_zero.mp hper)
  have hsecond : (poolMachine env params umemCfg).run
      ⟨{ bp with
          slabs := [a, b, c]
          nSlabsAvailable := 2
          nSlabsReservedAvailable := n + 2
          buffers := buffers }, [⟨c, b, 0, 0 + bp.perSlab⟩], []⟩
      [.init true, .consCheck 0 1, .cons 0] = some ⟨{ bp with
            slabs := [a, a, c]
            nSlabsAvailable := 1
            nSlabsReservedAvailable := n
            buffers := buffers },
          [⟨b, d, k, 0⟩, ⟨c, b, 0, 0 + bp.perSlab⟩], [buffers (entry (b + k))]⟩ := by
    simp [Machine.run, poolMachine, PoolSystem.next, bcacheInit, bcacheConsCheck, bcacheCons,
      Bpool.perSlab, ha, hd, hk]
  refine ⟨_, _, buffers (entry (b + k)), a, .of_run hreturned hsecond, rfl, ?_⟩
  simp [Bpool.perSlab]

/-- In the wrapping pool the slab at the boundary can be a full one when a producer slab is full. -/
theorem boundary_slab_full : ∃ st bc buffer slab,
    (poolMachine .granting .wrapping .tiny).Reachable st ∧ st.caches[1]? = some bc ∧
      buffer ∈ st.held ∧ bc.nBuffersProd = st.bp.perSlab ∧
      st.bp.slabs[st.bp.nSlabsAvailable]? = some slab ∧
      slab ∈ st.bp.slabs.take st.bp.nSlabsAvailable := by
  have hget {i : ℕ} (hi : i < 2 ^ 31) := BpoolParams.wrapping_reserved .tiny hi
  exact reachable_boundary_full (n := 2 ^ 31 - 4) (BpoolParams.wrapping_slabs .tiny) (by decide)
    (by decide) (by decide) (hget (by decide)) (hget (by decide)) (hget (by decide))
    (hget (by decide)) (.start ⟨_, rfl, rfl⟩)

end Hack.Xsk
