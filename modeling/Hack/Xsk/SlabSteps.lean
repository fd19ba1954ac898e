import Hack.Xsk.Slabs

/-!
# What the cache functions do to slabs and stock

One lemma for each `bcache_*` function: it keeps the slab invariant, and the
stock changes by exactly the buffer that the call moves. Callers of these
functions reason from these lemmas only.
-/

namespace Hack.Xsk

open Function

variable {bp bp' : Bpool} {caches rest : List Bcache} {bc bc' : Bcache} {buffer n count : ℕ}
  {calloc : Bool}

section Cons

variable (hinv : SlabInv bp (bc :: rest))
include hinv

/-- A change of the counters of the head cache keeps the slab invariant as long
as neither slab gets overfull. -/
theorem SlabInv.head_counters (hcons : bc'.slabCons = bc.slabCons)
    (hprod : bc'.slabProd = bc.slabProd) (hconsLe : bc'.nBuffersCons ≤ bp.perSlab)
    (hprodLe : bc'.nBuffersProd ≤ bp.perSlab) : SlabInv bp (bc' :: rest) := by
  have hpointers : bc'.slabPointers = bc.slabPointers := by
    simp only [Bcache.slabPointers, hcons, hprod]
  refine ⟨hinv.perSlab_pos, hinv.fits, hinv.slabs_length, hinv.reserved_length, hinv.available_le,
    hinv.reserved_balance, hinv.reserved_even, ?_, ?_, ?_⟩
  · simpa only [slabPointers, List.flatMap_cons, hpointers] using hinv.pointers_perm
  · exact List.forall_mem_cons.mpr ⟨hconsLe, (List.forall_mem_cons.mp hinv.cons_le).2⟩
  · exact List.forall_mem_cons.mpr ⟨hprodLe, (List.forall_mem_cons.mp hinv.prod_le).2⟩

/-- `bcache_cons` moves the last buffer of the consumer slab out of the stock. -/
theorem bcacheCons_spec (hcons : bcacheCons bp bc = some (buffer, bc')) :
    SlabInv bp (bc' :: rest) ∧ bc.nBuffersCons = bc'.nBuffersCons + 1 ∧
      (stock bp (bc :: rest)).Perm (buffer :: stock bp (bc' :: rest)) := by
  have hle := hinv.cons_le bc List.mem_cons_self
  have hprodLe := hinv.prod_le bc List.mem_cons_self
  cases hn : bc.nBuffersCons with
  | zero => simp [bcacheCons, hn] at hcons
  | succ k =>
    simp only [bcacheCons, hn, Option.some.injEq, Prod.mk.injEq] at hcons
    obtain ⟨rfl, rfl⟩ := hcons
    refine ⟨hinv.head_counters rfl rfl (by dsimp only; omega) hprodLe, rfl, ?_⟩
    simp only [stock, List.flatMap_cons, Bcache.content, hn, slabEntries_succ,
      List.perm_iff_count, List.count_append, List.count_cons, List.count_nil]
    intro x
    omega

/-- What a caller of `bcache_cons_check` may rely on: the consumer slab covers
the returned count, or it is a whole slab just taken from the pool. -/
structure ConsCheck (bp : Bpool) (bc' : Bcache) (n count : ℕ) : Prop where
  /-- The returned count never exceeds the request. -/
  count_le : count ≤ n
  /-- The count is covered, or the consumer slab has just been refilled. -/
  covered : count ≤ bc'.nBuffersCons ∨ bc'.nBuffersCons = bp.perSlab

/-- The empty consumer slab of a cache is traded for the last full slab of the pool. -/
theorem SlabInv.trade_cons (hempty : bc.nBuffersCons = 0) {available slabFull : ℕ}
    (havail : bp.nSlabsAvailable = available + 1) (hslab : bp.slabs[available]? = some slabFull) :
    SlabInv { bp with slabs := bp.slabs.set available bc.slabCons, nSlabsAvailable := available }
        ({ bc with slabCons := slabFull, nBuffersCons := bp.perSlab } :: rest) ∧
      (stock { bp with slabs := bp.slabs.set available bc.slabCons, nSlabsAvailable := available }
        ({ bc with slabCons := slabFull, nBuffersCons := bp.perSlab } :: rest)).Perm
        (stock bp (bc :: rest)) := by
  constructor
  · have hset := Custody.set_perm_cons_eraseIdx hslab bc.slabCons
    have hold := Custody.perm_cons_eraseIdx hslab
    refine ⟨hinv.perSlab_pos, hinv.fits, by simpa using hinv.slabs_length, hinv.reserved_length,
      ?_, hinv.reserved_balance, hinv.reserved_even, ?_, ?_, ?_⟩
    · have := hinv.available_le
      dsimp only
      omega
    · refine List.Perm.trans ?_ hinv.pointers_perm
      simp only [slabPointers, List.flatMap_cons, Bcache.slabPointers, List.perm_iff_count,
        List.count_append, List.count_cons, List.count_nil, hset.count_eq, hold.count_eq]
      intro x
      omega
    · exact List.forall_mem_cons.mpr ⟨le_rfl, (List.forall_mem_cons.mp hinv.cons_le).2⟩
    · exact List.forall_mem_cons.mpr (List.forall_mem_cons.mp hinv.prod_le)
  · have hnew : (bp.slabs.set available bc.slabCons).take available =
        bp.slabs.take available := List.take_set_of_le le_rfl
    have hold : bp.slabs.take (available + 1) = bp.slabs.take available ++ [slabFull] := by
      rw [List.take_add_one, hslab, Option.toList_some]
    simp only [stock, Bpool.fullBuffers, Bcache.content, Bpool.perSlab, List.flatMap_cons, hnew,
      havail, hold, hempty, List.flatMap_append, slabEntries_zero, List.flatMap_nil,
      List.append_nil, List.nil_append]
    simp only [List.perm_iff_count, List.count_append]
    intro x
    omega

/-- `bcache_cons_check` trades slabs without moving a buffer out of the stock. -/
theorem bcacheConsCheck_spec (hcheck : bcacheConsCheck bp bc n = some (bp', bc', count)) :
    SlabInv bp' (bc' :: rest) ∧ SameShape bp bp' ∧ ConsCheck bp bc' n count ∧
      (stock bp' (bc' :: rest)).Perm (stock bp (bc :: rest)) := by
  unfold bcacheConsCheck at hcheck
  by_cases hempty : bc.nBuffersCons = 0
  · rw [if_neg (by simpa using hempty)] at hcheck
    split at hcheck
    next =>
      cases hcheck
      exact ⟨hinv, .refl _, ⟨Nat.zero_le _, Or.inl (Nat.zero_le _)⟩, .refl _⟩
    next available havail =>
      obtain ⟨slabFull, hslab, hcheck⟩ := Option.bind_eq_some_iff.mp hcheck
      cases hcheck
      obtain ⟨hinv', hstock⟩ := hinv.trade_cons hempty havail hslab
      exact ⟨hinv', ⟨rfl, rfl, rfl, rfl, rfl⟩, ⟨le_rfl, Or.inr rfl⟩, hstock⟩
  · rw [if_pos hempty] at hcheck
    simp only [Option.some.injEq, Prod.mk.injEq] at hcheck
    obtain ⟨rfl, rfl, rfl⟩ := hcheck
    refine ⟨hinv, .refl _, ⟨?_, Or.inl ?_⟩, .refl _⟩ <;> split <;> omega

end Cons

section Write

variable {slab i : ℕ}

/-- A write to one slab keeps the full contents of a list of other slabs. -/
theorem SlabInv.flatMap_entries_update (hinv : SlabInv bp caches)
    (hslab : slab ∈ slabPointers bp caches) (hi : i < bp.perSlab) {slabs : List ℕ}
    (hmem : ∀ s ∈ slabs, s ∈ slabPointers bp caches) (hne : slab ∉ slabs) (value : ℕ) :
    (slabs.flatMap fun s =>
        slabEntries (update bp.buffers (entry (slab + i)) value) s bp.perSlab) =
      slabs.flatMap fun s => slabEntries bp.buffers s bp.perSlab := by
  apply List.flatMap_congr
  intro s hs
  exact hinv.entries_update hslab (hmem s hs) (fun heq => hne (heq ▸ hs)) hi le_rfl value

/-- A write to one slab keeps the contents of the caches that do not use it. -/
theorem SlabInv.flatMap_content_update (hinv : SlabInv bp caches)
    (hslab : slab ∈ slabPointers bp caches) (hi : i < bp.perSlab) {others : List Bcache}
    (hsub : ∀ b ∈ others, b ∈ caches) (hne : slab ∉ others.flatMap Bcache.slabPointers)
    (value : ℕ) :
    others.flatMap (Bcache.content (update bp.buffers (entry (slab + i)) value)) =
      others.flatMap (Bcache.content bp.buffers) := by
  apply List.flatMap_congr
  intro b hb
  have hpointer : ∀ s ∈ b.slabPointers, s ≠ slab := by
    intro s hs heq
    exact hne (List.mem_flatMap.mpr ⟨b, hb, heq ▸ hs⟩)
  have hentries : ∀ s ∈ b.slabPointers, ∀ k ≤ bp.perSlab,
      slabEntries (update bp.buffers (entry (slab + i)) value) s k =
        slabEntries bp.buffers s k := fun s hs k hk =>
    hinv.entries_update hslab (SlabInv.mem_of_cache (hsub b hb) hs) (hpointer s hs) hi hk value
  unfold Bcache.content
  rw [hentries b.slabCons (by simp) _ (hinv.cons_le b (hsub b hb)),
    hentries b.slabProd (by simp) _ (hinv.prod_le b (hsub b hb))]

end Write

/-- The producer slab of a cache that is used by nothing else. -/
theorem SlabInv.slabProd_fresh (hinv : SlabInv bp (bc :: rest)) :
    bc.slabProd ∉ bp.slabs ∧ bc.slabCons ≠ bc.slabProd ∧
      bc.slabProd ∉ rest.flatMap Bcache.slabPointers := by
  have hnodup := hinv.pointers_nodup
  simp only [slabPointers, List.flatMap_cons, Bcache.slabPointers, List.nodup_append,
    List.mem_append, List.mem_cons, List.nodup_cons] at hnodup
  grind

/-- The slab at the boundary of the pool is used by no cache and is not full. -/
theorem SlabInv.boundary_fresh (hinv : SlabInv bp caches)
    (hslab : bp.slabs[bp.nSlabsAvailable]? = some n) :
    n ∉ bp.slabs.take bp.nSlabsAvailable ∧ n ∉ bp.slabsReserved.take bp.nSlabsReservedAvailable ∧
      n ∉ caches.flatMap Bcache.slabPointers := by
  have hnodup := hinv.pointers_nodup
  obtain ⟨hlt, hget⟩ := List.getElem?_eq_some_iff.mp hslab
  have hmem : n ∈ bp.slabs.drop bp.nSlabsAvailable := by
    rw [List.drop_eq_getElem_cons hlt, hget]
    exact List.mem_cons_self
  rw [slabPointers, ← List.take_append_drop bp.nSlabsAvailable bp.slabs] at hnodup
  simp only [List.nodup_append, List.mem_append] at hnodup
  grind

/-- `bcache_prod` on a producer slab with room appends the buffer to it. -/
theorem bcacheProd_store (hinv : SlabInv bp (bc :: rest)) (hroom : bc.nBuffersProd < bp.perSlab)
    (hprod : bcacheProd bp bc buffer = some (bp', bc')) :
    SlabInv bp' (bc' :: rest) ∧ SameShape bp bp' ∧ bc'.nBuffersCons = bc.nBuffersCons ∧
      (stock bp' (bc' :: rest)).Perm (buffer :: stock bp (bc :: rest)) := by
  simp only [bcacheProd, if_pos hroom, Option.some.injEq, Prod.mk.injEq] at hprod
  obtain ⟨rfl, rfl⟩ := hprod
  obtain ⟨hslabs, hcons, hrest⟩ := hinv.slabProd_fresh
  have hmem : bc.slabProd ∈ slabPointers bp (bc :: rest) :=
    SlabInv.mem_of_cache List.mem_cons_self (by simp)
  have hmemCons : bc.slabCons ∈ slabPointers bp (bc :: rest) :=
    SlabInv.mem_of_cache List.mem_cons_self (by simp)
  have hconsLe := hinv.cons_le bc List.mem_cons_self
  refine ⟨?_, ⟨rfl, rfl, rfl, rfl, rfl⟩, rfl, ?_⟩
  · have hhead : SlabInv bp ({ bc with nBuffersProd := bc.nBuffersProd + 1 } :: rest) :=
      hinv.head_counters rfl rfl hconsLe hroom
    exact ⟨hhead.perSlab_pos, hhead.fits, hhead.slabs_length, hhead.reserved_length,
      hhead.available_le, hhead.reserved_balance, hhead.reserved_even, hhead.pointers_perm,
      hhead.cons_le, hhead.prod_le⟩
  · have hfull := hinv.flatMap_entries_update hmem hroom
      (fun s hs => SlabInv.mem_of_full hs) (fun h => hslabs (List.mem_of_mem_take h)) buffer
    have hothers := hinv.flatMap_content_update hmem hroom
      (fun b hb => List.mem_cons_of_mem _ hb) hrest buffer
    have hown := hinv.entries_update hmem hmemCons hcons hroom hconsLe buffer
    have hstored : slabEntries
        (update bp.buffers (entry (bc.slabProd + bc.nBuffersProd)) buffer)
        bc.slabProd (bc.nBuffersProd + 1) =
          slabEntries bp.buffers bc.slabProd bc.nBuffersProd ++ [buffer] := by
      have hfits := (hinv.aligned hmem).2
      rw [slabEntries_succ, slabEntries_update_of_le (by omega) le_rfl, update_self]
    simp only [Bpool.perSlab] at hfull
    simp only [stock, Bpool.fullBuffers, Bpool.perSlab, List.flatMap_cons, Bcache.content, hown,
      hstored, hothers, hfull, List.perm_iff_count, List.count_append, List.count_cons,
      List.count_nil]
    intro x
    omega

/-- `bcache_prod` on a full producer slab hands the slab to the pool and starts
the empty boundary slab with the buffer. -/
theorem bcacheProd_trade (hinv : SlabInv bp (bc :: rest)) (hfullProd : bc.nBuffersProd = bp.perSlab)
    (hlt : bp.nSlabsAvailable < bp.nSlabs)
    (hprod : bcacheProd bp bc buffer = some (bp', bc')) :
    SlabInv bp' (bc' :: rest) ∧ SameShape bp bp' ∧ bc'.nBuffersCons = bc.nBuffersCons ∧
      (stock bp' (bc' :: rest)).Perm (buffer :: stock bp (bc :: rest)) := by
  cases hslab : bp.slabs[bp.nSlabsAvailable]? with
  | none => simp [bcacheProd, hfullProd, hslab] at hprod
  | some slabEmpty =>
    simp only [bcacheProd, hfullProd, lt_irrefl, if_false, hslab, Option.bind_eq_bind,
      Option.bind_some, Option.pure_def, Option.some.injEq, Prod.mk.injEq] at hprod
    obtain ⟨rfl, rfl⟩ := hprod
    obtain ⟨hnotFull, -, hnotCached⟩ := hinv.boundary_fresh hslab
    simp only [List.flatMap_cons, Bcache.slabPointers, List.mem_append, List.mem_cons,
      List.not_mem_nil, or_false, not_or] at hnotCached
    obtain ⟨⟨hneCons, hneProd⟩, hrest⟩ := hnotCached
    have hmem : slabEmpty ∈ slabPointers bp (bc :: rest) :=
      List.mem_append_left _ (List.mem_of_getElem? hslab)
    have hmemCons : bc.slabCons ∈ slabPointers bp (bc :: rest) :=
      SlabInv.mem_of_cache List.mem_cons_self (by simp)
    have hmemProd : bc.slabProd ∈ slabPointers bp (bc :: rest) :=
      SlabInv.mem_of_cache List.mem_cons_self (by simp)
    have hset := Custody.set_perm_cons_eraseIdx hslab bc.slabProd
    have hold := Custody.perm_cons_eraseIdx hslab
    refine ⟨⟨hinv.perSlab_pos, hinv.fits, by simpa using hinv.slabs_length, hinv.reserved_length,
      hlt, hinv.reserved_balance, hinv.reserved_even, ?_, ?_, ?_⟩, ⟨rfl, rfl, rfl, rfl, rfl⟩, rfl,
      ?_⟩
    · refine List.Perm.trans ?_ hinv.pointers_perm
      simp only [slabPointers, List.flatMap_cons, Bcache.slabPointers, List.perm_iff_count,
        List.count_append, List.count_cons, List.count_nil, hset.count_eq, hold.count_eq]
      intro x
      omega
    · exact List.forall_mem_cons.mpr (List.forall_mem_cons.mp hinv.cons_le)
    · exact List.forall_mem_cons.mpr ⟨hinv.perSlab_pos, (List.forall_mem_cons.mp hinv.prod_le).2⟩
    · have htake : (bp.slabs.set bp.nSlabsAvailable bc.slabProd).take (bp.nSlabsAvailable + 1) =
          bp.slabs.take bp.nSlabsAvailable ++ [bc.slabProd] := by
        obtain ⟨hlen, -⟩ := List.getElem?_eq_some_iff.mp hslab
        rw [List.take_add_one, List.take_set_of_le le_rfl, List.getElem?_set_self hlen,
          Option.toList_some]
      -- The new first entry is written at offset zero of the slab that was empty.
      have hpos := hinv.perSlab_pos
      have hfull := hinv.flatMap_entries_update hmem hpos
        (fun s hs => SlabInv.mem_of_full hs) hnotFull buffer
      have hothers := hinv.flatMap_content_update hmem hpos
        (fun b hb => List.mem_cons_of_mem _ hb) hrest buffer
      have hcons := hinv.entries_update hmem hmemCons (Ne.symm hneCons) hpos
        (hinv.cons_le bc List.mem_cons_self) buffer
      have htraded := hinv.entries_update hmem hmemProd (Ne.symm hneProd) hpos le_rfl buffer
      have hfirst : slabEntries (update bp.buffers (entry (slabEmpty + 0)) buffer)
          slabEmpty 1 = [buffer] := by
        simp [slabEntries]
      simp only [Nat.add_zero, Bpool.perSlab] at hfull hothers hcons htraded hfirst hfullProd
      simp only [stock, Bpool.fullBuffers, Bpool.perSlab, List.flatMap_cons, Bcache.content,
        htake, List.flatMap_append, List.flatMap_nil, hfull, hothers, hcons, htraded, hfirst,
        hfullProd, List.perm_iff_count, List.count_append, List.count_cons, List.count_nil]
      intro x
      omega

/-- `bcache_prod` puts the buffer into the stock whenever the buffers in stock
leave room for one more. -/
theorem bcacheProd_spec (hinv : SlabInv bp (bc :: rest))
    (hroom : (stock bp (bc :: rest)).length < bp.nSlabs * bp.perSlab)
    (hprod : bcacheProd bp bc buffer = some (bp', bc')) :
    SlabInv bp' (bc' :: rest) ∧ SameShape bp bp' ∧ bc'.nBuffersCons = bc.nBuffersCons ∧
      (stock bp' (bc' :: rest)).Perm (buffer :: stock bp (bc :: rest)) := by
  by_cases hstore : bc.nBuffersProd < bp.perSlab
  · exact bcacheProd_store hinv hstore hprod
  · have hfull : bc.nBuffersProd = bp.perSlab := by
      have := hinv.prod_le bc List.mem_cons_self
      omega
    exact bcacheProd_trade hinv hfull (hinv.available_lt hfull hroom) hprod

/-- What `bcache_init` does when it returns a cache: the last two reserved slabs are lent. -/
theorem bcacheInit_eq_some (hinit : bcacheInit bp calloc = some (bp', some bc)) :
    ∃ available slabCons slabProd, bp.nSlabsReservedAvailable = available + 2 ∧
      bp.slabsReserved.take (available + 2) =
        bp.slabsReserved.take available ++ [slabProd, slabCons] ∧
      bp' = { bp with nSlabsReservedAvailable := available } ∧ bc = ⟨slabCons, slabProd, 0, 0⟩ := by
  unfold bcacheInit at hinit
  split at hinit
  · cases hinit
  · split at hinit
    · cases hinit
    · cases hinit
    next available havail =>
      obtain ⟨slabCons, hcons, hinit⟩ := Option.bind_eq_some_iff.mp hinit
      obtain ⟨slabProd, hprod, hinit⟩ := Option.bind_eq_some_iff.mp hinit
      cases hinit
      refine ⟨available, slabCons, slabProd, havail, ?_, rfl, rfl⟩
      rw [List.take_add_one, List.take_add_one, hcons, hprod]
      simp

/-- `bcache_init` lends two reserved slabs to a new, empty cache. -/
theorem bcacheInit_spec (hinv : SlabInv bp caches)
    (hinit : bcacheInit bp calloc = some (bp', some bc)) :
    SlabInv bp' (bc :: caches) ∧ SameShape bp bp' ∧ bc.nBuffersCons = 0 ∧
      stock bp' (bc :: caches) = stock bp caches := by
  obtain ⟨available, slabCons, slabProd, havail, htake, rfl, rfl⟩ := bcacheInit_eq_some hinit
  have hbalance := hinv.reserved_balance
  refine ⟨⟨hinv.perSlab_pos, hinv.fits, hinv.slabs_length, hinv.reserved_length, hinv.available_le,
    ?_, hinv.reserved_even, ?_, ?_, ?_⟩, ⟨rfl, rfl, rfl, rfl, rfl⟩, rfl, ?_⟩
  · simp only [List.length_cons]
    omega
  · refine List.Perm.trans ?_ hinv.pointers_perm
    simp only [slabPointers, List.flatMap_cons, Bcache.slabPointers, havail, htake,
      List.perm_iff_count, List.count_append, List.count_cons, List.count_nil]
    intro x
    omega
  · exact List.forall_mem_cons.mpr ⟨Nat.zero_le _, hinv.cons_le⟩
  · exact List.forall_mem_cons.mpr ⟨Nat.zero_le _, hinv.prod_le⟩
  · simp [stock, Bpool.fullBuffers, Bpool.perSlab, Bcache.content]

/-- A failed `bcache_init` leaves the pool as it was. -/
theorem bcacheInit_none (hinit : bcacheInit bp calloc = some (bp', none)) : bp' = bp := by
  unfold bcacheInit at hinit
  split at hinit
  · simp only [Option.some.injEq, Prod.mk.injEq, and_true] at hinit
    exact hinit.symm
  · split at hinit
    · simp only [Option.some.injEq, Prod.mk.injEq, and_true] at hinit
      exact hinit.symm
    · cases hinit
    · simp [Option.bind_eq_some_iff] at hinit

/-- `bcache_free` returns both slabs to the reserve; the buffers in them leave
the stock for good. -/
theorem bcacheFree_spec (hinv : SlabInv bp (bc :: rest)) (hfree : bcacheFree bp bc = some bp') :
    SlabInv bp' rest ∧ SameShape bp bp' ∧
      (stock bp (bc :: rest)).Perm (bc.content bp.buffers ++ stock bp' rest) := by
  unfold bcacheFree at hfree
  simp only [Option.ite_none_right_eq_some, Option.some.injEq] at hfree
  obtain ⟨hlt, rfl⟩ := hfree
  have htake : ((bp.slabsReserved.set bp.nSlabsReservedAvailable bc.slabProd).set
      (bp.nSlabsReservedAvailable + 1) bc.slabCons).take (bp.nSlabsReservedAvailable + 2) =
        bp.slabsReserved.take bp.nSlabsReservedAvailable ++ [bc.slabProd, bc.slabCons] := by
    rw [List.take_add_one, List.take_add_one, List.take_set_of_le (by omega),
      List.take_set_of_le le_rfl, List.getElem?_set_ne (by omega),
      List.getElem?_set_self (by omega), List.getElem?_set_self (by simpa using hlt)]
    simp
  have hbalance := hinv.reserved_balance
  simp only [List.length_cons] at hbalance
  refine ⟨⟨hinv.perSlab_pos, hinv.fits, hinv.slabs_length, by simpa using hinv.reserved_length,
    hinv.available_le, ?_, hinv.reserved_even, ?_, ?_, ?_⟩, ⟨rfl, rfl, rfl, rfl, rfl⟩, ?_⟩
  · dsimp only
    omega
  · refine List.Perm.trans ?_ hinv.pointers_perm
    simp only [slabPointers, List.flatMap_cons, Bcache.slabPointers, htake,
      List.perm_iff_count, List.count_append, List.count_cons, List.count_nil]
    intro x
    omega
  · exact fun b hb => hinv.cons_le b (List.mem_cons_of_mem _ hb)
  · exact fun b hb => hinv.prod_le b (List.mem_cons_of_mem _ hb)
  · simp only [stock, Bpool.fullBuffers, Bpool.perSlab, List.flatMap_cons, List.perm_iff_count,
      List.count_append]
    intro x
    omega

end Hack.Xsk
