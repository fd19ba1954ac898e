import Hack.Xsk.Conservation

/-!
# The sizes of the shared memory

The function `bpool_init` of `ebpf-xdp/xsk/af_rxtx.c` maps the memory of all buffers with a length
that it computes in 64 bits, and registers and later unmaps the memory with the same product in 32
bits. It also computes the size of its own block in 64 bits. The lengths agree, and the slabs are
inside of the block, exactly for the parameters for which neither product wraps.
-/

namespace Hack.Xsk

/-- The length of the memory that `bpool_init` maps. -/
def BpoolParams.mmapLength (params : BpoolParams) : ℕ :=
  params.nSlabs * params.nBuffersPerSlab.toNat * params.bufferSize.toNat

/-- The length that `bpool_init` passes to `xsk_umem__create`. -/
def Bpool.umemLength (bp : Bpool) : ℕ := (bp.params.nBuffers * bp.params.bufferSize).toNat

/-- `bpool_free`: the length that it passes to `munmap`. -/
def bpoolFree (bp : Bpool) : ℕ := (bp.params.nBuffers * bp.params.bufferSize).toNat

/-- The offset in the block of the pool behind the entries of a slab: the entries begin behind the
pool and its two arrays of slab pointers. -/
def Bpool.slabEnd (bp : Bpool) (sizeofBpool slab : ℕ) : ℕ :=
  sizeofBpool + bp.nSlabs * 8 + bp.nSlabsReserved * 8 + (slab + bp.perSlab) * 8

/-- What the sizes of a pool have to satisfy. -/
structure SizesAgree (params : BpoolParams) (sizeofBpool : ℕ) (bp : Bpool) : Prop where
  /-- The pool has as many buffers as were asked for. -/
  enough : params.nBuffers.toNat ≤ bp.nBuffers
  /-- The memory is registered as it was mapped. -/
  umem : bp.umemLength = params.mmapLength
  /-- The memory is unmapped as it was mapped. -/
  munmap : bpoolFree bp = params.mmapLength
  /-- Every buffer is inside of the memory. -/
  addresses : ∀ i < bp.nBuffers, bp.buffers i + params.bufferSize.toNat ≤ params.mmapLength
  /-- Every slab is inside of the block of the pool. -/
  slabs : ∀ slab ∈ bp.slabs ++ bp.slabsReserved,
    bp.slabEnd sizeofBpool slab ≤ params.totalSize sizeofBpool

/-- The memory of the buffers, rounded up to whole slabs, has a length of 32 bits, and the block of
the pool one of 64 bits. -/
def BpoolParams.SizesFit (params : BpoolParams) (sizeofBpool : ℕ) : Prop :=
  params.slabsNeeded * params.nBuffersPerSlab.toNat * params.bufferSize.toNat < 2 ^ 32 ∧
    params.blockSize sizeofBpool < 2 ^ 64

variable {env : InitEnv} {params : BpoolParams} {umemCfg : XskUmemConfig} {bp : Bpool}

/-- A pool that was returned has mapped memory. -/
theorem mmap_of_bpoolInit (hinit : bpoolInit env params umemCfg = some bp) :
    env.mmap params.mmapLength = true := by
  unfold bpoolInit at hinit
  simp only [Option.ite_none_left_eq_some] at hinit
  obtain ⟨-, -, -, -, hmmap, -⟩ := hinit
  simpa [BpoolParams.pool, BpoolParams.mmapLength] using hmmap

/-- A sum that wraps leaves no slabs. -/
theorem nSlabs_eq (hmapped : params.mmapLength ≠ 0) : params.nSlabs = params.slabsNeeded ∧
    0 < params.nSlabs := by
  have hn := params.nBuffers.toNat_lt
  have hp := params.nBuffersPerSlab.toNat_lt
  have hpos : 0 < params.nSlabs := by
    rw [BpoolParams.mmapLength] at hmapped
    apply Nat.pos_of_ne_zero
    rintro hzero
    rw [hzero, Nat.zero_mul, Nat.zero_mul] at hmapped
    exact hmapped rfl
  refine ⟨?_, hpos⟩
  have hsum : (params.nBuffers + params.nBuffersPerSlab - 1).toNat =
      (params.nBuffers.toNat + params.nBuffersPerSlab.toNat + 4294967295) % 4294967296 := by
    rw [UInt32.toNat_sub, UInt32.toNat_add, show (1 : UInt32).toNat = 1 from rfl]
    omega
  -- A wrapped sum is less than the size of a slab, and gives no slab.
  obtain ⟨hslab, hle⟩ := Nat.div_pos_iff.mp hpos
  have hexact : (params.nBuffers + params.nBuffersPerSlab - 1).toNat =
      params.nBuffers.toNat + params.nBuffersPerSlab.toNat - 1 := by omega
  exact congrArg (· / params.nBuffersPerSlab.toNat) hexact

/-- The slabs have room for all buffers. -/
theorem nBuffers_le_slabsNeeded (hslab : 0 < params.nBuffersPerSlab.toNat) :
    params.nBuffers.toNat ≤ params.slabsNeeded * params.nBuffersPerSlab.toNat := by
  have hdiv := Nat.div_add_mod (params.nBuffers.toNat + params.nBuffersPerSlab.toNat - 1)
    params.nBuffersPerSlab.toNat
  have hmod := Nat.mod_lt (params.nBuffers.toNat + params.nBuffersPerSlab.toNat - 1) hslab
  rw [BpoolParams.slabsNeeded, Nat.mul_comm]
  omega

/-- The 32-bit product is the length of the memory when it does not wrap. -/
theorem umemLength_pool (params : BpoolParams) (umemCfg : XskUmemConfig) :
    (params.pool umemCfg).umemLength = params.mmapLength % 2 ^ 32 := by
  have hlt := nSlabs_mul_lt params
  change (UInt32.ofNat (params.nSlabs * params.nBuffersPerSlab.toNat) * params.bufferSize).toNat = _
  rw [UInt32.toNat_mul, UInt32.toNat_ofNat_of_lt' hlt]
  rfl

/-- The slabs of the pool and the reserved ones follow one another. -/
theorem mem_slabs_iff {slab : ℕ} :
    slab ∈ (params.pool umemCfg).slabs ++ (params.pool umemCfg).slabsReserved ↔
      ∃ j < params.nSlabs + params.nSlabsReserved,
        slab = entry (j * params.nBuffersPerSlab.toNat) := by
  simp only [BpoolParams.pool, List.mem_append, List.mem_map, List.mem_range]
  constructor
  · rintro (⟨i, hi, rfl⟩ | ⟨i, hi, rfl⟩)
    · exact ⟨i, by omega, rfl⟩
    · exact ⟨params.nSlabs + i, by omega, by rw [Nat.add_mul]⟩
  · rintro ⟨j, hj, rfl⟩
    by_cases hpool : j < params.nSlabs
    · exact .inl ⟨j, hpool, rfl⟩
    · refine .inr ⟨j - params.nSlabs, by omega, ?_⟩
      rw [← Nat.add_mul, Nat.add_sub_cancel' (Nat.not_lt.mp hpool)]

/-- Where the entries of a slab end. -/
theorem slabEnd_eq (sizeofBpool : ℕ) {j : ℕ} (hlt : j * params.nBuffersPerSlab.toNat < 2 ^ 61) :
    (params.pool umemCfg).slabEnd sizeofBpool (entry (j * params.nBuffersPerSlab.toNat)) =
      sizeofBpool + (params.nSlabs + params.nSlabsReserved) * 8 +
        (j + 1) * (params.nBuffersPerSlab.toNat * 8) := by
  rw [entry_of_lt hlt, Bpool.slabEnd, ← Nat.mul_assoc, Nat.add_one_mul]
  simp only [BpoolParams.pool, Bpool.perSlab]
  omega

/-- The slabs are in the block exactly when its size does not wrap, as otherwise the slab with the
last address of 64 bits ends behind it. -/
theorem slabs_inside_iff (hslab : 0 < params.nBuffersPerSlab.toNat)
    (hmapped : params.mmapLength ≠ 0) (sizeofBpool : ℕ) :
    (∀ slab ∈ (params.pool umemCfg).slabs ++ (params.pool umemCfg).slabsReserved,
      (params.pool umemCfg).slabEnd sizeofBpool slab ≤ params.totalSize sizeofBpool) ↔
      params.blockSize sizeofBpool < 2 ^ 64 := by
  obtain ⟨hneeded, hpos⟩ := nSlabs_eq hmapped
  have hblock : params.blockSize sizeofBpool = sizeofBpool +
      (params.nSlabs + params.nSlabsReserved) * 8 +
        (params.nSlabs + params.nSlabsReserved) * (params.nBuffersPerSlab.toNat * 8) := by
    rw [BpoolParams.blockSize, ← hneeded, ← nSlabsReserved_eq, Nat.mul_add, Nat.add_assoc]
  have htotal : params.totalSize sizeofBpool = params.blockSize sizeofBpool % 2 ^ 64 := by
    rw [hblock, BpoolParams.totalSize]
    congr 1
    simp only [Nat.add_mul]
    omega
  rw [htotal]
  constructor
  · intro hinside
    by_contra hwraps
    have hmod := Nat.mod_lt (params.blockSize sizeofBpool) (Nat.two_pow_pos 64)
    have hend (j : ℕ) (hj : j < params.nSlabs + params.nSlabsReserved)
        (hlt : j * params.nBuffersPerSlab.toNat < 2 ^ 61) :
        sizeofBpool + (params.nSlabs + params.nSlabsReserved) * 8 +
          (j + 1) * (params.nBuffersPerSlab.toNat * 8) < 2 ^ 64 := by
      have hle := hinside _ (mem_slabs_iff.mpr ⟨j, hj, rfl⟩)
      rw [slabEnd_eq sizeofBpool hlt] at hle
      omega
    have hfirst := hend 0 (by omega) (by omega)
    -- The slab with the last address, as an index.
    have hdiv := Nat.div_add_mod (2 ^ 64 - 1 - (sizeofBpool +
      (params.nSlabs + params.nSlabsReserved) * 8)) (params.nBuffersPerSlab.toNat * 8)
    have hrest := Nat.mod_lt (2 ^ 64 - 1 - (sizeofBpool +
      (params.nSlabs + params.nSlabsReserved) * 8))
      (show 0 < params.nBuffersPerSlab.toNat * 8 by omega)
    generalize (2 ^ 64 - 1 - (sizeofBpool + (params.nSlabs + params.nSlabsReserved) * 8)) /
      (params.nBuffersPerSlab.toNat * 8) = j at hdiv
    rw [Nat.mul_comm] at hdiv
    have hj : j < params.nSlabs + params.nSlabsReserved := by
      refine Nat.lt_of_mul_lt_mul_right (a := params.nBuffersPerSlab.toNat * 8) ?_
      omega
    have hlast := hend j hj (by rw [← Nat.mul_assoc] at hdiv; omega)
    rw [Nat.add_one_mul] at hlast
    omega
  · intro hlt slab hmem
    obtain ⟨j, hj, rfl⟩ := mem_slabs_iff.mp hmem
    have hle : (j + 1) * (params.nBuffersPerSlab.toNat * 8) ≤
        (params.nSlabs + params.nSlabsReserved) * (params.nBuffersPerSlab.toNat * 8) :=
      Nat.mul_le_mul_right _ hj
    have hindex : j * params.nBuffersPerSlab.toNat < 2 ^ 61 := by
      have hentries := BpoolParams.entries_le hslab hlt
      exact Nat.lt_of_lt_of_le (Nat.mul_lt_mul_of_pos_right hj hslab) hentries
    rw [Nat.mod_eq_of_lt hlt, slabEnd_eq sizeofBpool hindex, hblock]
    omega

/-- Every buffer is inside of the memory. -/
theorem buffers_add_le {i : ℕ} (hi : i < (params.pool umemCfg).nBuffers) :
    (params.pool umemCfg).buffers i + params.bufferSize.toNat ≤ params.mmapLength := by
  have hentry : (params.pool umemCfg).buffers i = i * params.bufferSize.toNat := if_pos hi
  have hle : (i + 1) * params.bufferSize.toNat ≤ params.mmapLength := Nat.mul_le_mul_right _ hi
  rw [hentry]
  rwa [Nat.add_one_mul] at hle

/-- When `mmap` refuses a length of zero, the sizes of a pool that was returned agree exactly when
the lengths do not wrap. -/
theorem sizesAgree_iff (hmmap : env.mmap 0 = false)
    (hinit : bpoolInit env params umemCfg = some bp) :
    SizesAgree params env.sizeofBpool bp ↔ params.SizesFit env.sizeofBpool := by
  have hmapped : params.mmapLength ≠ 0 := by
    intro hzero
    have hlength := mmap_of_bpoolInit hinit
    rw [hzero, hmmap] at hlength
    cases hlength
  obtain ⟨rfl, hslab⟩ := bpoolInit_eq_some hinit
  obtain ⟨hneeded, -⟩ := nSlabs_eq hmapped
  have hslabs := @slabs_inside_iff params umemCfg hslab hmapped env.sizeofBpool
  have humem := umemLength_pool params umemCfg
  have hlength : params.mmapLength =
      params.slabsNeeded * params.nBuffersPerSlab.toNat * params.bufferSize.toNat := by
    rw [BpoolParams.mmapLength, hneeded]
  rw [BpoolParams.SizesFit, ← hlength]
  constructor
  · intro hagree
    refine ⟨?_, hslabs.mp hagree.slabs⟩
    rw [← hagree.umem, humem]
    exact Nat.mod_lt _ (by decide)
  · rintro ⟨hmemory, hblock⟩
    rw [Nat.mod_eq_of_lt hmemory] at humem
    refine ⟨?_, humem, humem, fun i hi => buffers_add_le hi, hslabs.mpr hblock⟩
    have henough := nBuffers_le_slabsNeeded hslab
    rwa [← hneeded] at henough

/-- A system that provides all that is asked for, except for a mapping of length zero. -/
def generousEnv : InitEnv where
  setrlimit := true
  sizeofBpool := 512
  calloc _ := true
  pthreadMutexInit := true
  mmap length := length ≠ 0
  xskUmemCreate _ := true

/-- The sizes of a pool for 64 buffers agree. -/
theorem sizesAgree_64 : bpoolInit generousEnv ⟨64, 2048, 1, 32⟩ ⟨64, 64⟩ =
        some (BpoolParams.pool ⟨64, 2048, 1, 32⟩ ⟨64, 64⟩) ∧
      SizesAgree ⟨64, 2048, 1, 32⟩ 512 (BpoolParams.pool ⟨64, 2048, 1, 32⟩ ⟨64, 64⟩) :=
  ⟨rfl, (@sizesAgree_iff generousEnv _ _ _ rfl rfl).mpr ⟨by decide, by decide⟩⟩

/-- For one buffer of 4096 bytes more than 32 bits can count, 4096 bytes are registered. -/
theorem umem_of_wrapped_length : bpoolInit generousEnv ⟨1048577, 4096, 1, 1⟩ ⟨64, 64⟩ =
        some (BpoolParams.pool ⟨1048577, 4096, 1, 1⟩ ⟨64, 64⟩) ∧
      BpoolParams.mmapLength ⟨1048577, 4096, 1, 1⟩ = 2 ^ 32 + 4096 ∧
      (BpoolParams.pool ⟨1048577, 4096, 1, 1⟩ ⟨64, 64⟩).umemLength = 4096 ∧
      ¬SizesAgree ⟨1048577, 4096, 1, 1⟩ 512 (BpoolParams.pool ⟨1048577, 4096, 1, 1⟩ ⟨64, 64⟩) := by
  have hmapped : BpoolParams.mmapLength ⟨1048577, 4096, 1, 1⟩ = 2 ^ 32 + 4096 := by decide
  have humem : (BpoolParams.pool ⟨1048577, 4096, 1, 1⟩ ⟨64, 64⟩).umemLength = 4096 := by
    rw [umemLength_pool, hmapped]
    decide
  refine ⟨rfl, hmapped, humem, fun hagree => ?_⟩
  have hequal := hagree.umem
  rw [humem, hmapped] at hequal
  exact absurd hequal (by decide)

end Hack.Xsk
