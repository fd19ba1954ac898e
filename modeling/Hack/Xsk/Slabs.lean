import Hack.Xsk.Pool
import Hack.Custody
import Mathlib.Tactic.Ring

/-!
# The slab invariant of the buffer pool

Slabs are traded between the pool and the caches by swapping pointers, and the
fullness of a slab is implied by its position. `SlabInv` couples positions,
counters, and pointers of the pool and of all live caches; `stock` lists the
buffers they hold. One lemma for each function of the source says that the
invariant is kept and how the stock changes. The caches are a list up to
reordering, so the cache a call works on is stated at its head.
-/

namespace Hack.Xsk

open Function

/-- The first `n` entries of the slab that begins at entry `slab`. -/
def slabEntries (buffers : ℕ → ℕ) (slab n : ℕ) : List ℕ :=
  (List.range n).map fun i => buffers (entry (slab + i))

/-- The buffers in the full slabs of the pool. -/
def Bpool.fullBuffers (bp : Bpool) : List ℕ :=
  (bp.slabs.take bp.nSlabsAvailable).flatMap fun slab => slabEntries bp.buffers slab bp.perSlab

/-- The buffers in the used parts of a cache's two slabs. -/
def Bcache.content (buffers : ℕ → ℕ) (bc : Bcache) : List ℕ :=
  slabEntries buffers bc.slabCons bc.nBuffersCons ++ slabEntries buffers bc.slabProd bc.nBuffersProd

/-- The buffers held by the pool and by the live caches. -/
def stock (bp : Bpool) (caches : List Bcache) : List ℕ :=
  bp.fullBuffers ++ caches.flatMap (Bcache.content bp.buffers)

/-- The two slab pointers of a cache. -/
@[simp] def Bcache.slabPointers (bc : Bcache) : List ℕ := [bc.slabCons, bc.slabProd]

/-- The slab pointers of the pool, of the reserve, and of the live caches. -/
def slabPointers (bp : Bpool) (caches : List Bcache) : List ℕ :=
  bp.slabs ++ (bp.slabsReserved.take bp.nSlabsReservedAvailable ++
    caches.flatMap Bcache.slabPointers)

/-- The slab pointers laid out by `bpool_init`. -/
def Bpool.layout (bp : Bpool) : List ℕ :=
  (List.range (bp.nSlabs + bp.nSlabsReserved)).map fun i => entry (i * bp.perSlab)

/-- The dimensions fixed by `bpool_init`; no later call changes them. -/
structure SameShape (bp bp' : Bpool) : Prop where
  /-- The parameters agree. -/
  params_eq : bp'.params = bp.params
  /-- The ring sizes agree. -/
  umemCfg_eq : bp'.umemCfg = bp.umemCfg
  /-- The numbers of slabs agree. -/
  nSlabs_eq : bp'.nSlabs = bp.nSlabs
  /-- The numbers of reserved slabs agree. -/
  nSlabsReserved_eq : bp'.nSlabsReserved = bp.nSlabsReserved
  /-- The numbers of buffers agree. -/
  nBuffers_eq : bp'.nBuffers = bp.nBuffers

/-- The positions and counters of a pool and its live caches fit together, and
every slab pointer occurs exactly once. -/
structure SlabInv (bp : Bpool) (caches : List Bcache) : Prop where
  /-- A slab has at least one entry. -/
  perSlab_pos : 0 < bp.perSlab
  /-- No index of an entry wraps. -/
  fits : (bp.nSlabs + bp.nSlabsReserved) * bp.perSlab ≤ 2 ^ 61
  /-- The pool array has its fixed length. -/
  slabs_length : bp.slabs.length = bp.nSlabs
  /-- The reserve array has its fixed length. -/
  reserved_length : bp.slabsReserved.length = bp.nSlabsReserved
  /-- The boundary of the full slabs lies in the pool array. -/
  available_le : bp.nSlabsAvailable ≤ bp.nSlabs
  /-- Each live cache has borrowed two reserved slabs. -/
  reserved_balance : bp.nSlabsReservedAvailable + 2 * caches.length = bp.nSlabsReserved
  /-- Reserved slabs come in pairs. -/
  reserved_even : Even bp.nSlabsReserved
  /-- Every slab pointer of the layout occurs exactly once. -/
  pointers_perm : (slabPointers bp caches).Perm bp.layout
  /-- A consumer slab is never overfull. -/
  cons_le : ∀ bc ∈ caches, bc.nBuffersCons ≤ bp.perSlab
  /-- A producer slab is never overfull. -/
  prod_le : ∀ bc ∈ caches, bc.nBuffersProd ≤ bp.perSlab

/-- Shapes compose along a sequence of calls. -/
theorem SameShape.trans {a b c : Bpool} (hab : SameShape a b) (hbc : SameShape b c) :
    SameShape a c :=
  ⟨hbc.params_eq.trans hab.params_eq, hbc.umemCfg_eq.trans hab.umemCfg_eq,
    hbc.nSlabs_eq.trans hab.nSlabs_eq, hbc.nSlabsReserved_eq.trans hab.nSlabsReserved_eq,
    hbc.nBuffers_eq.trans hab.nBuffers_eq⟩

/-- A pool has its own shape. -/
theorem SameShape.refl (bp : Bpool) : SameShape bp bp := ⟨rfl, rfl, rfl, rfl, rfl⟩

/-- Pools of one shape have slabs of one size. -/
theorem SameShape.perSlab_eq {bp bp' : Bpool} (h : SameShape bp bp') :
    bp'.perSlab = bp.perSlab := by
  unfold Bpool.perSlab
  rw [h.params_eq]

section Entries

variable {buffers : ℕ → ℕ} {slab slab' n i p : ℕ}

/-- A slab prefix has the requested number of entries. -/
@[simp] theorem slabEntries_length (buffers : ℕ → ℕ) (slab n : ℕ) :
    (slabEntries buffers slab n).length = n := by simp [slabEntries]

/-- An empty slab prefix holds nothing. -/
@[simp] theorem slabEntries_zero (buffers : ℕ → ℕ) (slab : ℕ) :
    slabEntries buffers slab 0 = [] := rfl

/-- A slab prefix grows by its next entry. -/
theorem slabEntries_succ (buffers : ℕ → ℕ) (slab n : ℕ) : slabEntries buffers slab (n + 1) =
      slabEntries buffers slab n ++ [buffers (entry (slab + n))] := by
  simp [slabEntries, List.range_succ]

/-- Slab prefixes depend only on the entries they cover. -/
theorem slabEntries_congr {buffers' : ℕ → ℕ}
    (h : ∀ i < n, buffers' (entry (slab + i)) = buffers (entry (slab + i))) :
    slabEntries buffers' slab n = slabEntries buffers slab n := by
  unfold slabEntries
  apply List.map_congr_left
  intro i hi
  exact h i (List.mem_range.mp hi)

/-- An index that does not wrap leads to its own entry. -/
theorem entry_of_lt (h : i < 2 ^ 61) : entry i = i := Nat.mod_eq_of_lt h

/-- Writing an entry of one slab leaves every other slab of the layout alone. -/
theorem slabEntries_update_of_ne (hslab : p ∣ slab) (hslab' : p ∣ slab')
    (hfits : slab + p ≤ 2 ^ 61) (hfits' : slab' + p ≤ 2 ^ 61) (hne : slab ≠ slab')
    (hi : i < p) (hn : n ≤ p) (value : ℕ) :
    slabEntries (update buffers (entry (slab' + i)) value) slab n =
      slabEntries buffers slab n := by
  apply slabEntries_congr
  intro k hk
  apply update_of_ne
  rw [entry_of_lt (by omega), entry_of_lt (by omega)]
  intro heq
  obtain ⟨a, rfl⟩ := hslab
  obtain ⟨b, rfl⟩ := hslab'
  -- Division by the slab size recovers the slab from any of its entries.
  have hdiv := congrArg (· / p) heq
  simp only [Nat.mul_add_div (by omega : 0 < p), Nat.div_eq_of_lt hi,
    Nat.div_eq_of_lt (by omega : k < p), Nat.add_zero] at hdiv
  exact hne (by rw [hdiv])

/-- Writing behind the used part of a slab leaves the used part alone. -/
theorem slabEntries_update_of_le (hfits : slab + i < 2 ^ 61) (hn : n ≤ i) (value : ℕ) :
    slabEntries (update buffers (entry (slab + i)) value) slab n =
      slabEntries buffers slab n := by
  apply slabEntries_congr
  intro k hk
  apply update_of_ne
  rw [entry_of_lt (by omega), entry_of_lt hfits]
  omega

end Entries

/-- Where no index wraps, the slabs of the layout follow one another. -/
theorem Bpool.layout_eq {bp : Bpool} (hpos : 0 < bp.perSlab)
    (hfits : (bp.nSlabs + bp.nSlabsReserved) * bp.perSlab ≤ 2 ^ 61) :
    bp.layout = (List.range (bp.nSlabs + bp.nSlabsReserved)).map fun i => i * bp.perSlab := by
  refine List.map_congr_left fun i hi => entry_of_lt ?_
  have hlt := Nat.mul_lt_mul_of_pos_right (List.mem_range.mp hi) hpos
  omega

/-- The layout has no repeated slab. -/
theorem Bpool.layout_nodup {bp : Bpool} (hpos : 0 < bp.perSlab)
    (hfits : (bp.nSlabs + bp.nSlabsReserved) * bp.perSlab ≤ 2 ^ 61) : bp.layout.Nodup := by
  rw [layout_eq hpos hfits]
  apply List.Nodup.map _ List.nodup_range
  intro a b hab
  exact Nat.eq_of_mul_eq_mul_right hpos hab

/-- The stock does not depend on the order of the caches. -/
theorem stock_perm {bp : Bpool} {caches caches' : List Bcache} (h : caches.Perm caches') :
    (stock bp caches).Perm (stock bp caches') :=
  (h.flatMap_right _).append_left _

namespace SlabInv

variable {bp : Bpool} {caches caches' rest : List Bcache} {bc : Bcache} {slab : ℕ}

section Facts

variable (hinv : SlabInv bp caches)
include hinv

/-- The slab invariant does not depend on the order of the caches. -/
theorem perm (h : caches.Perm caches') : SlabInv bp caches' where
  perSlab_pos := hinv.perSlab_pos
  fits := hinv.fits
  slabs_length := hinv.slabs_length
  reserved_length := hinv.reserved_length
  available_le := hinv.available_le
  reserved_balance := by rw [← h.length_eq]; exact hinv.reserved_balance
  reserved_even := hinv.reserved_even
  pointers_perm :=
    (((h.flatMap_right _).append_left _).append_left _).symm.trans hinv.pointers_perm
  cons_le := fun bc hbc => hinv.cons_le bc (h.mem_iff.mpr hbc)
  prod_le := fun bc hbc => hinv.prod_le bc (h.mem_iff.mpr hbc)

/-- No slab pointer occurs twice. -/
theorem pointers_nodup : (slabPointers bp caches).Nodup :=
  hinv.pointers_perm.nodup_iff.mpr (Bpool.layout_nodup hinv.perSlab_pos hinv.fits)

/-- Every slab pointer is a multiple of the slab size, and no index in the slab wraps. -/
theorem aligned (hslab : slab ∈ slabPointers bp caches) :
    bp.perSlab ∣ slab ∧ slab + bp.perSlab ≤ 2 ^ 61 := by
  have hlayout := hinv.pointers_perm.mem_iff.mp hslab
  rw [Bpool.layout_eq hinv.perSlab_pos hinv.fits] at hlayout
  obtain ⟨i, hi, rfl⟩ := List.mem_map.mp hlayout
  refine ⟨Nat.dvd_mul_left _ _, ?_⟩
  rw [← Nat.add_one_mul]
  exact (Nat.mul_le_mul_right _ (List.mem_range.mp hi)).trans hinv.fits

/-- The buffers of slabs apart from `slab` survive a write to an entry of `slab`. -/
theorem entries_update {other i n : ℕ} (hslab : slab ∈ slabPointers bp caches)
    (hother : other ∈ slabPointers bp caches) (hne : other ≠ slab) (hi : i < bp.perSlab)
    (hn : n ≤ bp.perSlab) (value : ℕ) :
    slabEntries (update bp.buffers (entry (slab + i)) value) other n =
      slabEntries bp.buffers other n :=
  slabEntries_update_of_ne (hinv.aligned hother).1 (hinv.aligned hslab).1 (hinv.aligned hother).2
    (hinv.aligned hslab).2 hne hi hn value

end Facts

/-- A full slab of the pool is one of the slab pointers. -/
theorem mem_of_full (h : slab ∈ bp.slabs.take bp.nSlabsAvailable) : slab ∈ slabPointers bp caches :=
  List.mem_append_left _ (List.mem_of_mem_take h)

/-- The slabs of a live cache are slab pointers. -/
theorem mem_of_cache (hbc : bc ∈ caches) (h : slab ∈ bc.slabPointers) :
    slab ∈ slabPointers bp caches :=
  List.mem_append_right _ (List.mem_append_right _ (List.mem_flatMap.mpr ⟨bc, hbc, h⟩))

/-- The number of buffers in stock, by places. -/
theorem stock_length (hinv : SlabInv bp caches) :
    (stock bp caches).length = bp.nSlabsAvailable * bp.perSlab +
      (caches.map fun bc => bc.nBuffersCons + bc.nBuffersProd).sum := by
  have hle : bp.nSlabsAvailable ≤ bp.slabs.length := by
    rw [hinv.slabs_length]
    exact hinv.available_le
  simp [stock, Bpool.fullBuffers, Bcache.content, List.length_flatMap, hle]

/-- The pigeonhole argument of `bcache_prod`: a full producer slab and one more
buffer outside the stock leave room for a slab in the pool. -/
theorem available_lt (hinv : SlabInv bp (bc :: rest)) (hfull : bc.nBuffersProd = bp.perSlab)
    (hroom : (stock bp (bc :: rest)).length < bp.nSlabs * bp.perSlab) :
    bp.nSlabsAvailable < bp.nSlabs := by
  rw [hinv.stock_length] at hroom
  simp only [List.map_cons, List.sum_cons, hfull] at hroom
  have hlt : bp.nSlabsAvailable * bp.perSlab < bp.nSlabs * bp.perSlab := by omega
  exact Nat.lt_of_mul_lt_mul_right hlt

end SlabInv

end Hack.Xsk
