import Mathlib.Data.List.Flatten
import Hack.Xsk.Conservation
import Hack.Xsk.Ports

/-!
# Every frame is in one place

A frame leaves the cache of the receiving port through its fill ring, comes
back through the completion ring of the transmitting port into another cache,
and reaches the pool by a slab trade. The inventory lists all these places, and
every step of a port or of the kernel moves a frame from one place to another.
The count returned by `bcache_cons_check` is carried along the steps of
`port_init` and `port_rx_burst` until the loops around `bcache_cons` end.
-/

namespace Hack.Xsk

/-- The addresses in the hands of the call in progress. -/
def PortPc.addrs : PortPc → List ℕ
  | .fill _ addrs => addrs
  | .txReserve descs => descs.map Desc.addr
  | .complete addrs => addrs
  | _ => []

/-- The addresses in the four rings of a port and in its call in progress. -/
def Port.queued (p : Port) : List ℕ :=
  p.umemFq ++ p.rxq.map Desc.addr ++ p.txq.map Desc.addr ++ p.umemCq ++ p.pc.addrs

/-- The places a step on a port can touch: the slabs, the port's own rings, and
the bursts. -/
def Port.inventory (p : Port) (bp : Bpool) (others : List Bcache) (pending : List Desc) :
    List ℕ := stock bp (p.bc :: others) ++ p.queued ++ pending.map Desc.addr

namespace PortSystem

/-- The live caches: those of the ports and the leaked ones. -/
def caches (st : PortSystem) : List Bcache := st.ports.map Port.bc ++ st.leaked

/-- The live caches except that of one port. -/
def others (st : PortSystem) (i : ℕ) : List Bcache :=
  (st.ports.eraseIdx i).map Port.bc ++ st.leaked

/-- All places of an address: the pool and the caches, the rings and running
calls of every port, and the bursts of the threads. -/
def places (st : PortSystem) : List ℕ :=
  stock st.bp st.caches ++ st.ports.flatMap Port.queued ++ st.pending.map Desc.addr

end PortSystem

/-- The frame of an address. -/
def BpoolParams.frame (params : BpoolParams) (addr : ℕ) : ℕ := addr / params.bufferSize.toNat

/-- What the call in progress may rely on: the consumer slab covers the rest of
its loop. Before the loop the slab may instead be a whole one. -/
def PortPc.Covered (perSlab fillSize nBuffersCons : ℕ) : PortPc → Prop
  | .initSocket => fillSize ≤ nBuffersCons
  | .rxPeek n => n ≤ nBuffersCons ∨ nBuffersCons = perSlab
  | .rxReserve m => m ≤ nBuffersCons ∨ nBuffersCons = perSlab
  | .fill left _ => left ≤ nBuffersCons
  | _ => True

/-- A port that passed the checks of `port_init` has slabs no smaller than the
fill ring, and its running call is covered. -/
structure Port.Ready (bp : Bpool) (p : Port) : Prop where
  /-- A whole slab can replenish the whole fill ring. -/
  fillSize_le : p.pc ≠ .initCheck → bp.umemCfg.fillSize.toNat ≤ bp.perSlab
  /-- The consumer slab covers the call in progress. -/
  covered : p.pc.Covered bp.perSlab bp.umemCfg.fillSize.toNat p.bc.nBuffersCons

/-- Being ready depends only on the dimensions of the pool. -/
theorem Port.Ready.of_sameShape {bp bp' : Bpool} {p : Port} (hready : p.Ready bp)
    (hshape : SameShape bp bp') : p.Ready bp' := by
  refine ⟨?_, ?_⟩
  · rw [hshape.umemCfg_eq, hshape.perSlab_eq]
    exact hready.fillSize_le
  · rw [hshape.umemCfg_eq, hshape.perSlab_eq]
    exact hready.covered

section Step

variable {maxBurstRx : ℕ} {bp bp' : Bpool} {pending pending' : List Desc} {p p' : Port}
  {rest : List Bcache} {step : PortStep} {bc : Bcache} {n addr : ℕ} {addrs : List ℕ}

/-- What a step of a call keeps: the slab invariant, the dimensions of the pool,
the coverage of the call, and the addresses in the places it can touch. -/
structure Port.StepSpec (bp : Bpool) (pending : List Desc) (p : Port) (rest : List Bcache)
    (bp' : Bpool) (pending' : List Desc) (p' : Port) : Prop where
  /-- The slab invariant holds after the step. -/
  slabs : SlabInv bp' (p'.bc :: rest)
  /-- The pool keeps its dimensions. -/
  shape : SameShape bp bp'
  /-- The call in progress stays covered. -/
  ready : p'.Ready bp'
  /-- No address is lost or duplicated. -/
  inventory_perm : (p'.inventory bp' rest pending').Perm (p.inventory bp rest pending)

/-- A step that leaves the pool and the cache alone only has to account for the
rings, the running call, and the bursts. -/
theorem Port.StepSpec.of_rings (hslabs : SlabInv bp (p.bc :: rest)) (hbc : p'.bc = p.bc)
    (hready : p'.Ready bp)
    (hperm : (p'.queued ++ pending'.map Desc.addr).Perm (p.queued ++ pending.map Desc.addr)) :
    StepSpec bp pending p rest bp pending' p' := by
  refine ⟨hbc ▸ hslabs, .refl _, hready, ?_⟩
  rw [inventory, inventory, hbc, List.append_assoc, List.append_assoc]
  exact hperm.append_left _

section Cases

variable (hslabs : SlabInv bp (p.bc :: rest)) (hready : p.Ready bp)
include hslabs hready

/-- The check of the cache: the returned count is covered, or the consumer slab is
a whole one. -/
theorem Port.StepSpec.of_check (hpc : p.pc = .idle)
    (hcheck : bcacheConsCheck bp p.bc maxBurstRx = some (bp', bc, n)) :
    StepSpec bp pending p rest bp' pending
      { p with bc := bc, pc := if n = 0 then .idle else .rxPeek n } := by
  obtain ⟨hslabs', hshape, hcount, hstock⟩ := bcacheConsCheck_spec hslabs hcheck
  refine ⟨hslabs', hshape, ⟨fun _ => ?_, ?_⟩, ?_⟩
  · rw [hshape.umemCfg_eq, hshape.perSlab_eq]
    exact hready.fillSize_le (by simp [hpc])
  · rw [hshape.perSlab_eq]
    dsimp only
    split
    · trivial
    · exact hcount.covered
  · have haddrs : (if n = 0 then PortPc.idle else .rxPeek n).addrs = p.pc.addrs := by
      rw [hpc]
      split <;> rfl
    simp only [inventory, queued, haddrs]
    exact (hstock.append_right _).append_right _

/-- An iteration of the replenishing loop takes a free frame from the cache. -/
theorem Port.StepSpec.of_cons {left : ℕ} (hpc : p.pc = .fill (left + 1) addrs)
    (hcons : bcacheCons bp p.bc = some (addr, bc)) : StepSpec bp pending p rest bp pending
      { p with bc := bc, pc := .fill left (addrs ++ [addr]) } := by
  obtain ⟨hslabs', hleft, hstock⟩ := bcacheCons_spec hslabs hcons
  have hcovered := hready.covered
  rw [hpc, PortPc.Covered] at hcovered
  refine ⟨hslabs', .refl _, ⟨fun _ => hready.fillSize_le (by simp [hpc]), ?_⟩, ?_⟩
  · show left ≤ bc.nBuffersCons
    omega
  · have hcount := List.perm_iff_count.mp hstock
    simp only [inventory, queued, PortPc.addrs, hpc, List.perm_iff_count, List.count_append,
      List.count_cons, List.count_nil] at hcount ⊢
    intro x
    have := hcount x
    omega

/-- An iteration of the completion loop gives a frame to the cache, which has room
because the frame was outside the slabs. -/
theorem Port.StepSpec.of_prod
    (hroom : (p.inventory bp rest pending).length ≤ bp.nSlabs * bp.perSlab)
    (hpc : p.pc = .complete (addr :: addrs)) (hprod : bcacheProd bp p.bc addr = some (bp', bc)) :
    StepSpec bp pending p rest bp' pending { p with bc := bc, pc := .complete addrs } := by
  have hlt : (stock bp (p.bc :: rest)).length < bp.nSlabs * bp.perSlab := by
    simp only [inventory, queued, PortPc.addrs, hpc, List.length_append, List.length_cons] at hroom
    omega
  obtain ⟨hslabs', hshape, -, hstock⟩ := bcacheProd_spec hslabs hlt hprod
  refine ⟨hslabs', hshape, ⟨fun _ => ?_, trivial⟩, ?_⟩
  · rw [hshape.umemCfg_eq, hshape.perSlab_eq]
    exact hready.fillSize_le (by simp [hpc])
  · have hcount := List.perm_iff_count.mp hstock
    simp only [inventory, queued, PortPc.addrs, hpc, List.perm_iff_count, List.count_append,
      List.count_cons] at hcount ⊢
    intro x
    have := hcount x
    omega

/-- Received packets move from the receive ring to the bursts, and the coverage
of the check passes to the number of packets found. -/
theorem Port.StepSpec.of_receive {m : ℕ} (hpc : p.pc = .rxPeek n) (hle : m ≤ n) :
    StepSpec bp pending p rest bp (pending ++ p.rxq.take m)
      { p with rxq := p.rxq.drop m, pc := if m = 0 then .idle else .rxReserve m } := by
  have hcovered := hready.covered
  rw [hpc, PortPc.Covered] at hcovered
  refine .of_rings hslabs rfl ⟨fun _ => hready.fillSize_le (by simp [hpc]), ?_⟩ ?_
  · dsimp only
    split
    · trivial
    · exact hcovered.imp_left (le_trans hle)
  · have haddrs : (if m = 0 then PortPc.idle else .rxReserve m).addrs = p.pc.addrs := by
      rw [hpc]
      split <;> rfl
    simp only [queued, haddrs, List.perm_iff_count, List.count_append, List.map_append]
    intro addr
    have hcount : (p.rxq.map Desc.addr).count addr = ((p.rxq.take m).map Desc.addr).count addr +
          ((p.rxq.drop m).map Desc.addr).count addr := by
      rw [← List.count_append, ← List.map_append, List.take_append_drop]
    omega

end Cases

/-- Every step of a call keeps the slab invariant, the coverage of the call, and
the addresses. -/
theorem Port.Transition.spec (hstep : p.Transition maxBurstRx bp pending step bp' pending' p')
    (hslabs : SlabInv bp (p.bc :: rest)) (hready : p.Ready bp)
    (hroom : (p.inventory bp rest pending).length ≤ bp.nSlabs * bp.perSlab) :
    StepSpec bp pending p rest bp' pending' p' := by
  have hcovered := hready.covered
  have hfill : ∀ pc, p.pc = pc → pc ≠ .initCheck →
      bp.umemCfg.fillSize.toNat ≤ bp.perSlab := fun pc hpc hne => hready.fillSize_le (hpc ▸ hne)
  cases hstep with
  | check hpc hcheck => exact .of_check hslabs hready hpc hcheck
  | handOver hpc hsub =>
    refine .of_rings hslabs rfl ⟨fun _ => hfill _ hpc (by simp), trivial⟩ ?_
    have htaken := (List.subperm_append_diff_self_of_count_le
      (List.subperm_ext_iff.mp hsub)).map Desc.addr
    rw [List.map_append] at htaken
    simp only [queued, PortPc.addrs, hpc, List.append_nil, List.append_assoc]
    exact (((htaken.append_left _).append_left _).append_left _).append_left _
  | receive hpc hle _ => exact .of_receive hslabs hready hpc hle
  | collect hpc =>
    refine .of_rings hslabs rfl ⟨fun _ => hfill _ hpc (by simp), trivial⟩ ?_
    apply List.Perm.append_right
    simp only [queued, PortPc.addrs, hpc, List.append_nil, List.append_assoc]
    refine ((List.Perm.append_left _ ?_).append_left _).append_left _
    exact List.perm_append_comm.trans (.of_eq (List.take_append_drop _ _))
  | refill hpc hfree =>
    have hle := hfill _ hpc (by simp)
    rw [hpc, PortPc.Covered] at hcovered
    refine .of_rings hslabs rfl ⟨fun _ => hle, ?_⟩ ?_
    · -- the fill ring had room for the packets, and a whole slab covers the ring
      simp only [PortPc.Covered]
      omega
    · simp only [queued, PortPc.addrs, hpc]
      exact .refl _
  | submit hpc =>
    refine .of_rings hslabs rfl ⟨fun _ => hfill _ hpc (by simp), trivial⟩ ?_
    apply List.Perm.append_right
    simp only [queued, PortPc.addrs, hpc, List.append_nil, List.append_assoc, List.map_append]
    exact ((List.perm_append_comm.append_left _).append_left _).append_left _
  | cons hpc hcons => exact .of_cons hslabs hready hpc hcons
  | prod hpc hprod => exact .of_prod hslabs hready hroom hpc hprod
  | filled hpc =>
    refine .of_rings hslabs rfl ⟨fun _ => hfill _ hpc (by simp), trivial⟩ ?_
    simp only [queued, PortPc.addrs, hpc, List.perm_iff_count, List.count_append, List.append_nil]
    intro x
    omega
  | completed hpc =>
    refine .of_rings hslabs rfl ⟨fun _ => hfill _ hpc (by simp), trivial⟩ ?_
    simp only [queued, PortPc.addrs, hpc]
    exact .refl _

end Step

namespace PortSystem

variable {maxBurstRx i : ℕ} {st st' : PortSystem} {p : Port} {label : PortLabel}

section Places

variable (hget : st.ports[i]? = some p)
include hget

/-- The live caches, with that of one port in front. -/
theorem caches_perm : st.caches.Perm (p.bc :: st.others i) :=
  ((Custody.perm_cons_eraseIdx hget).map Port.bc).append_right st.leaked

/-- The live caches after a replacement, with that of the new port in front. -/
theorem replace_caches_perm (bp : Bpool) (pending : List Desc) (p' : Port) :
    (st.replace i bp pending p').caches.Perm (p'.bc :: st.others i) :=
  ((Custody.set_perm_cons_eraseIdx hget p').map Port.bc).append_right st.leaked

/-- The places of one port come first, then the rings of the others. -/
theorem places_perm : st.places.Perm (p.inventory st.bp (st.others i) st.pending ++
      (st.ports.eraseIdx i).flatMap Port.queued) := by
  have hstock : (stock st.bp st.caches).Perm (stock st.bp (p.bc :: st.others i)) :=
    stock_perm (caches_perm hget)
  have hqueued := List.perm_iff_count.mp (Custody.flatMap_perm hget Port.queued)
  simp only [places, Port.inventory, List.perm_iff_count, List.count_append] at hqueued ⊢
  intro addr
  have hstock := hstock.count_eq addr
  have hqueued := hqueued addr
  omega

/-- After a replacement the places of the new port come first, then the
untouched rings of the others. -/
theorem replace_places_perm (bp : Bpool) (pending : List Desc) (p' : Port) :
    (st.replace i bp pending p').places.Perm
      (p'.inventory bp (st.others i) pending ++ (st.ports.eraseIdx i).flatMap Port.queued) := by
  have hstock : (stock bp (st.replace i bp pending p').caches).Perm
      (stock bp (p'.bc :: st.others i)) := stock_perm (replace_caches_perm hget bp pending p')
  have hqueued := List.perm_iff_count.mp (Custody.flatMap_set_perm hget p' Port.queued)
  have hports : (st.replace i bp pending p').ports = st.ports.set i p' := rfl
  simp only [places, Port.inventory, hports, List.perm_iff_count, List.count_append] at hqueued ⊢
  intro addr
  have hstock := hstock.count_eq addr
  have hqueued := hqueued addr
  simp only [replace] at hstock ⊢
  omega

end Places

/-- What every run keeps: the slab invariant, the dimensions chosen by
`bpool_init`, covered calls, and that no frame is in two places. -/
structure Inv (params : BpoolParams) (umemCfg : XskUmemConfig) (st : PortSystem) : Prop where
  /-- Positions, counters, and slab pointers fit together. -/
  slabs : SlabInv st.bp st.caches
  /-- The pool has the dimensions laid out by `bpool_init`. -/
  shape : SameShape (params.pool umemCfg) st.bp
  /-- Every call in progress is covered. -/
  ready : ∀ p ∈ st.ports, p.Ready st.bp
  /-- No frame occurs more often than in the fresh pool. -/
  subperm : (st.places.map params.frame).Subperm
    (List.range (params.nSlabs * params.nBuffersPerSlab.toNat))

namespace Inv

variable {env : InitEnv} {params : BpoolParams} {umemCfg : XskUmemConfig} {bp : Bpool} {p' : Port}

/-- The addresses in the system fit into the slabs of the pool. -/
theorem places_length_le (hinv : st.Inv params umemCfg) :
    st.places.length ≤ st.bp.nSlabs * st.bp.perSlab := by
  have hlength := hinv.subperm.length_le
  rw [List.length_map, List.length_range] at hlength
  rw [hinv.shape.nSlabs_eq, hinv.shape.perSlab_eq]
  exact hlength

/-- The fresh pool satisfies the invariant: the frames are numbered in order. -/
theorem of_start (hsize : 0 < params.bufferSize.toNat)
    (hfits : params.blockSize env.sizeofBpool < 2 ^ 64)
    (hstart : (portMachine env params umemCfg maxBurstRx).start st) : st.Inv params umemCfg := by
  obtain ⟨bp, hinit, rfl⟩ := hstart
  obtain ⟨rfl, hpos⟩ := bpoolInit_eq_some hinit
  refine ⟨BpoolParams.pool_slabInv hpos hfits, .refl _, by simp, ?_⟩
  have hframes : (params.addresses.map params.frame) =
      List.range (params.nSlabs * params.nBuffersPerSlab.toNat) := by
    rw [BpoolParams.addresses, List.map_map]
    refine (List.map_congr_left fun k _ => ?_).trans (List.map_id _)
    exact Nat.mul_div_cancel k hsize
  have hplaces : places ⟨params.pool umemCfg, [], [], []⟩ = params.addresses := by
    simp [places, caches, BpoolParams.pool_stock]
  rw [hplaces, hframes]

section Kept

variable (hinv : st.Inv params umemCfg)
include hinv

/-- A port may change together with the pool and the bursts if the slab
invariant, the coverage, and the frames of the touched places are kept. -/
theorem replace (hget : st.ports[i]? = some p) {pending : List Desc}
    (hslabs : SlabInv bp (p'.bc :: st.others i)) (hshape : SameShape st.bp bp)
    (hready : p'.Ready bp)
    (hframes : ((p'.inventory bp (st.others i) pending).map params.frame).Perm
      ((p.inventory st.bp (st.others i) st.pending).map params.frame)) :
    (st.replace i bp pending p').Inv params umemCfg := by
  refine ⟨hslabs.perm (replace_caches_perm hget bp pending p').symm, hinv.shape.trans hshape,
    ?_, ?_⟩
  · intro q hq
    rcases List.mem_or_eq_of_mem_set hq with hq | rfl
    · exact (hinv.ready q hq).of_sameShape hshape
    · exact hready
  · have hnew := (replace_places_perm hget bp pending p').map params.frame
    have hold := (places_perm hget).map params.frame
    rw [List.map_append] at hnew hold
    exact ((hnew.trans (hframes.append_right _)).trans hold.symm).subperm.trans hinv.subperm

/-- A port may disappear with its rings if the slabs hold no additional address. -/
theorem erase {leaked : List Bcache}
    (hslabs : SlabInv bp ((st.ports.eraseIdx i).map Port.bc ++ leaked))
    (hshape : SameShape st.bp bp)
    (hstock : (stock bp ((st.ports.eraseIdx i).map Port.bc ++ leaked)).Subperm
      (stock st.bp st.caches)) :
    Inv params umemCfg ⟨bp, st.ports.eraseIdx i, leaked, st.pending⟩ := by
  refine ⟨hslabs, hinv.shape.trans hshape, ?_, ?_⟩
  · intro q hq
    exact (hinv.ready q (List.mem_of_mem_eraseIdx hq)).of_sameShape hshape
  · refine List.Subperm.trans ?_ hinv.subperm
    have hplaces : (places ⟨bp, st.ports.eraseIdx i, leaked, st.pending⟩).Subperm st.places :=
      (List.subperm_append_right _).mpr
        (hstock.append ((List.eraseIdx_sublist _ i).flatMap _).subperm)
    obtain ⟨sub, hperm, hsub⟩ := hplaces
    exact ⟨sub.map params.frame, hperm.map _, hsub.map _⟩

/-- `port_free` keeps the invariant; the frames of the port are lost. -/
theorem of_portFree (hfree : portFree st i = some st') : st'.Inv params umemCfg := by
  simp only [portFree, Option.bind_eq_bind, Option.bind_eq_some_iff, Option.pure_def,
    Option.some.injEq] at hfree
  obtain ⟨p, hget, bp, hfree, rfl⟩ := hfree
  have hperm := caches_perm hget
  obtain ⟨hslabs, hshape, hstock⟩ := bcacheFree_spec (hinv.slabs.perm hperm) hfree
  refine hinv.erase hslabs hshape ?_
  exact (List.sublist_append_right _ _).subperm.trans
    (hstock.symm.trans (stock_perm hperm).symm).subperm

/-- The size checks of `port_init` keep the invariant, whether they pass or not. -/
theorem of_initCheck (hget : st.ports[i]? = some p) (hpc : p.pc = .initCheck)
    (hcheck : st.initCheck i p = some st') : st'.Inv params umemCfg := by
  have haddrs : p.pc.addrs = [] := by
    rw [hpc]
    rfl
  simp only [initCheck] at hcheck
  split at hcheck
  · exact hinv.of_portFree hcheck
  next hslab =>
    simp only [Option.bind_eq_bind, Option.bind_eq_some_iff, Prod.exists] at hcheck
    obtain ⟨bp, bc, count, hcons, hcheck⟩ := hcheck
    obtain ⟨hslabs, hshape, hcount, hstock⟩ :=
      bcacheConsCheck_spec (hinv.slabs.perm (caches_perm hget)) hcons
    have hframes : ∀ pc : PortPc, pc.addrs = [] →
        ((({ p with bc := bc, pc := pc } : Port).inventory bp (st.others i) st.pending).map
          params.frame).Perm ((p.inventory st.bp (st.others i) st.pending).map params.frame) := by
      intro pc hpcAddrs
      simp only [Port.inventory, Port.queued, hpcAddrs, haddrs]
      exact ((hstock.append_right _).append_right _).map _
    split at hcheck
    · have hready : ({ p with bc := bc } : Port).Ready bp := by
        refine ⟨fun h => absurd hpc h, ?_⟩
        rw [hpc]
        trivial
      exact (hinv.replace hget hslabs hshape hready (hframes p.pc haddrs)).of_portFree hcheck
    next hle =>
      cases hcheck
      refine hinv.replace hget hslabs hshape ⟨fun _ => ?_, ?_⟩ (hframes _ rfl)
      · rw [hshape.umemCfg_eq, hshape.perSlab_eq]
        exact Nat.le_of_not_lt hslab
      · have hcovered := hcount.covered
        simp only [bcacheSlabSize] at hslab
        rw [hshape.umemCfg_eq]
        show st.bp.umemCfg.fillSize.toNat ≤ bc.nBuffersCons
        omega

/-- The socket of `port_init` keeps the invariant: a failed map update keeps the
cache alive, and success starts the covered replenishing loop. -/
theorem of_initSocket (hget : st.ports[i]? = some p) (hpc : p.pc = .initSocket)
    {created mapped : Bool} (hsocket : st.initSocket i p created mapped = some st') :
    st'.Inv params umemCfg := by
  have hperm := caches_perm hget
  have hready := hinv.ready p (List.mem_of_getElem? hget)
  simp only [initSocket] at hsocket
  split at hsocket
  · exact hinv.of_portFree hsocket
  · split at hsocket
    · cases hsocket
      have hleaked : ((st.ports.eraseIdx i).map Port.bc ++ p.bc :: st.leaked).Perm st.caches :=
        List.perm_middle.trans hperm.symm
      exact hinv.erase (hinv.slabs.perm hleaked.symm) (.refl _) (stock_perm hleaked).subperm
    · cases hsocket
      have hcovered := hready.covered
      rw [hpc] at hcovered
      refine hinv.replace hget (hinv.slabs.perm hperm) (.refl _)
        ⟨fun _ => hready.fillSize_le (by simp [hpc]), hcovered⟩ ?_
      simp only [Port.inventory, Port.queued, PortPc.addrs, hpc]
      exact .refl _

/-- `port_init` up to `bcache_init` adds a port with an empty cache. -/
theorem of_init {calloc callocCache : Bool}
    (hnext : st.next maxBurstRx (.init calloc callocCache) = some st') :
    st'.Inv params umemCfg := by
  simp only [PortSystem.next] at hnext
  split at hnext
  · cases hnext
    exact hinv
  · simp only [Option.bind_eq_bind, Option.bind_eq_some_iff, Option.pure_def,
      Option.some.injEq, Prod.exists] at hnext
    obtain ⟨bp, bc, hinit, rfl⟩ := hnext
    cases bc with
    | none =>
      rw [bcacheInit_none hinit]
      simpa using hinv
    | some bc =>
      obtain ⟨hslabs, hshape, -, hstock⟩ := bcacheInit_spec hinv.slabs hinit
      have hperm : (caches ⟨bp, st.ports ++ [Port.fresh bc], st.leaked, st.pending⟩).Perm
          (bc :: st.caches) := by
        simp only [caches, List.map_append, List.map_cons, List.map_nil, List.append_assoc,
          List.cons_append, List.nil_append, Port.fresh]
        exact List.perm_middle
      refine ⟨hslabs.perm hperm.symm, hinv.shape.trans hshape, ?_, ?_⟩
      · intro q hq
        rcases List.mem_append.mp hq with hq | hq
        · exact (hinv.ready q hq).of_sameShape hshape
        · obtain rfl := List.mem_singleton.mp hq
          exact ⟨fun h => absurd rfl h, trivial⟩
      · refine List.Subperm.trans (List.Perm.subperm ?_) hinv.subperm
        apply List.Perm.map
        have hqueued : (Port.fresh bc).queued = [] := rfl
        simp only [places, Option.map_some, Option.toList_some, List.flatMap_append,
          List.flatMap_cons, List.flatMap_nil, hqueued, List.append_nil, ← hstock]
        exact ((stock_perm hperm).append_right _).append_right _

/-- The kernel moves a frame between two rings of one port. -/
theorem of_kernel (hget : st.ports[i]? = some p) (hbc : p'.bc = p.bc) (hpc : p'.pc = p.pc)
    (hframes : (p'.queued.map params.frame).Perm (p.queued.map params.frame)) :
    (st.replace i st.bp st.pending p').Inv params umemCfg := by
  have hready := hinv.ready p (List.mem_of_getElem? hget)
  refine hinv.replace hget (hbc ▸ hinv.slabs.perm (caches_perm hget)) (.refl _) ⟨?_, ?_⟩ ?_
  · rw [hpc]
    exact hready.fillSize_le
  · rw [hpc, hbc]
    exact hready.covered
  · simp only [Port.inventory, hbc, List.map_append]
    exact (hframes.append_left _).append_right _

/-- The frame number used by the kernel is that of the parameters. -/
theorem frame_eq {addr addr' : ℕ} (hsame : st.sameFrame addr addr' = true) :
    params.frame addr = params.frame addr' := by
  have hparams := hinv.shape.params_eq
  simpa only [sameFrame, hparams, BpoolParams.pool, BpoolParams.frame,
    decide_eq_true_eq] using hsame

/-- Every step keeps the invariant. -/
theorem next (hnext : st.next maxBurstRx label = some st') : st'.Inv params umemCfg := by
  cases label with
  | init calloc callocCache => exact hinv.of_init hnext
  | check i =>
    simp only [PortSystem.next, Option.bind_eq_bind, Option.bind_eq_some_iff,
      Option.ite_none_right_eq_some] at hnext
    obtain ⟨p, hget, hpc, hnext⟩ := hnext
    exact hinv.of_initCheck hget hpc hnext
  | socket i created mapped =>
    simp only [PortSystem.next, Option.bind_eq_bind, Option.bind_eq_some_iff,
      Option.ite_none_right_eq_some] at hnext
    obtain ⟨p, hget, hpc, hnext⟩ := hnext
    exact hinv.of_initSocket hget hpc hnext
  | port i step =>
    simp only [PortSystem.next, Option.bind_eq_bind, Option.bind_eq_some_iff, Option.pure_def,
      Option.some.injEq, Prod.exists] at hnext
    obtain ⟨p, hget, bp, pending, p', hstep, rfl⟩ := hnext
    have hroom : (p.inventory st.bp (st.others i) st.pending).length ≤
        st.bp.nSlabs * st.bp.perSlab := by
      have hlength := (places_perm hget).length_eq
      rw [List.length_append] at hlength
      have := hinv.places_length_le
      omega
    have hspec := (Port.transition_of_step hstep).spec (hinv.slabs.perm (caches_perm hget))
      (hinv.ready p (List.mem_of_getElem? hget)) hroom
    exact hinv.replace hget hspec.slabs hspec.shape hspec.ready (hspec.inventory_perm.map _)
  | kernelRx i k desc =>
    simp only [PortSystem.next, Option.bind_eq_bind, Option.bind_eq_some_iff,
      Option.ite_none_right_eq_some, Option.some.injEq] at hnext
    obtain ⟨p, hget, addr, hfq, hsame, rfl⟩ := hnext
    refine hinv.of_kernel hget rfl rfl ?_
    have hfill := ((Custody.perm_cons_eraseIdx hfq).map params.frame).symm
    have hframe := hinv.frame_eq hsame
    simp only [Port.queued, List.map_append, List.map_cons, List.map_nil, hframe,
      List.perm_iff_count, List.count_append, List.count_cons, List.count_nil] at hfill ⊢
    intro x
    have := hfill x
    omega
  | kernelTx i k addr =>
    simp only [PortSystem.next, Option.bind_eq_bind, Option.bind_eq_some_iff,
      Option.ite_none_right_eq_some, Option.some.injEq] at hnext
    obtain ⟨p, hget, desc, htq, hsame, rfl⟩ := hnext
    refine hinv.of_kernel hget rfl rfl ?_
    have hsent := (((Custody.perm_cons_eraseIdx htq).map Desc.addr).map params.frame).symm
    have hframe := hinv.frame_eq hsame
    simp only [Port.queued, List.map_append, List.map_cons, List.map_nil, hframe,
      List.perm_iff_count, List.count_append, List.count_cons, List.count_nil] at hsent ⊢
    intro x
    have := hsent x
    omega
  | free i =>
    simp only [PortSystem.next, Option.bind_eq_bind, Option.bind_eq_some_iff,
      Option.ite_none_right_eq_some] at hnext
    obtain ⟨p, -, -, hnext⟩ := hnext
    exact hinv.of_portFree hnext

end Kept

/-- The invariant holds in every reachable state. -/
theorem of_reachable (hsize : 0 < params.bufferSize.toNat)
    (hfits : params.blockSize env.sizeofBpool < 2 ^ 64)
    (hreach : (portMachine env params umemCfg maxBurstRx).Reachable st) :
    st.Inv params umemCfg :=
  hreach.invariant (PortSystem.Inv params umemCfg) (fun _ hs => of_start hsize hfits hs)
    (fun _ _ _ hinv _ hnext => hinv.next hnext)

end Inv

end PortSystem

/-- Frames are never in two places at once, in a block of fewer than `2 ^ 64`
bytes: in the pool, the caches, the rings, the running calls, and the bursts
every frame number occurs at most once. An iteration of a replenishing loop
always finds a buffer in the consumer slab. -/
theorem frames_in_one_place (env : InitEnv) (params : BpoolParams) (umemCfg : XskUmemConfig)
    (maxBurstRx : ℕ) (hsize : 0 < params.bufferSize.toNat)
    (hfits : params.blockSize env.sizeofBpool < 2 ^ 64) {st : PortSystem}
    (hreach : (portMachine env params umemCfg maxBurstRx).Reachable st) :
    (st.places.map params.frame).Nodup ∧
      ∀ p ∈ st.ports, ∀ left addrs, p.pc = .fill (left + 1) addrs → 0 < p.bc.nBuffersCons := by
  have hinv := PortSystem.Inv.of_reachable hsize hfits hreach
  constructor
  · obtain ⟨sub, hperm, hsub⟩ := hinv.subperm
    exact hperm.nodup_iff.mp (List.nodup_range.sublist hsub)
  · intro p hp left addrs hpc
    have hcovered := (hinv.ready p hp).covered
    rw [hpc] at hcovered
    exact Nat.lt_of_lt_of_le (Nat.succ_pos left) hcovered

/-- Two ports are created and fill their fill rings. -/
def PortLabel.tinyPorts : List PortLabel :=
  [.init true true, .check 0, .socket 0 true true, .port 0 .transfer, .port 0 .finish,
    .init true true, .check 1, .socket 1 true true, .port 1 .transfer, .port 1 .finish]

/-- The first port receives a packet at an offset in its frame, and its call has
just reserved an entry of the fill ring. -/
def PortLabel.tinyReceive : List PortLabel :=
  [.kernelRx 0 0 ⟨4096 + 256, 60⟩, .port 0 .rxBurst, .port 0 (.peek 1), .port 0 .reserve]

/-- While a received packet waits, its frame is nowhere else, and the loop that
replaces it in the fill ring finds a buffer. -/
theorem frames_in_one_place_tiny : ∃ st p,
    (portMachine .granting .tiny .tiny 64).Reachable st ∧ st.pending = [⟨4352, 60⟩] ∧
      st.ports[0]? = some p ∧ p.pc = .fill 1 [] ∧ 0 < p.bc.nBuffersCons ∧
      (st.places.map BpoolParams.tiny.frame).Nodup := by
  have hrun : ∃ st p, (portMachine .granting .tiny .tiny 64).run
      ⟨BpoolParams.tiny.pool .tiny, [], [], []⟩
      (PortLabel.tinyPorts ++ PortLabel.tinyReceive) = some st ∧
      st.pending = [⟨4352, 60⟩] ∧ st.ports[0]? = some p ∧ p.pc = .fill 1 [] :=
    ⟨_, _, rfl, rfl, rfl, rfl⟩
  obtain ⟨st, p, hrun, hpending, hget, hpc⟩ := hrun
  have hreach : (portMachine .granting .tiny .tiny 64).Reachable st :=
    Machine.Reachable.of_run (.start ⟨_, rfl, rfl⟩) hrun
  obtain ⟨hnodup, hcons⟩ := frames_in_one_place .granting .tiny .tiny 64 (by decide)
    (by decide) hreach
  exact ⟨st, p, hreach, hpending, hget, hpc, hcons p (List.mem_of_getElem? hget) 0 [] hpc, hnodup⟩

section Ports

variable {env : InitEnv} {params : BpoolParams} {umemCfg : XskUmemConfig} {bp : Bpool}
  {a b c n k : ℕ}

/-- A port gets the last two reserved slabs and trades the first of them for a full slab. -/
theorem run_init_check (hslabs : bp.slabs = [a, b, c]) (hfull : bp.nSlabsAvailable = 3)
    (havailable : bp.nSlabsReservedAvailable = n + 2) (hcfg : bp.umemCfg = .tiny)
    (hper : bp.perSlab = k + 2) (hb : bp.slabsReserved[n]? = some b)
    (hc : bp.slabsReserved[n + 1]? = some c) :
    (portMachine env params umemCfg 1).run ⟨bp, [], [], []⟩ [.init true true, .check 0] =
      some ⟨{ bp with slabs := [a, b, c], nSlabsAvailable := 2, nSlabsReservedAvailable := n },
        [⟨⟨c, b, k + 2, 0⟩, [], [], [], [], .initSocket⟩], [], []⟩ := by
  unfold Bpool.perSlab at hper
  simp [Machine.run, portMachine, PortSystem.next, PortSystem.initCheck, PortSystem.replace,
    Port.fresh, bcacheInit, bcacheConsCheck, bcacheSlabSize, Bpool.perSlab, XskUmemConfig.tiny,
    hcfg, hslabs, hfull, havailable, hb, hc, hper]

/-- The port fills its fill ring, receives a packet into the frame there, replaces the frame, and
transmits the packet. The frame ends in the producer slab. -/
theorem reachable_of_forwarding {frame : ℕ} (hcfg : bp.umemCfg = .tiny) (hper : bp.perSlab = k + 2)
    (hframe : bp.buffers (entry (c + (k + 1))) = frame)
    (hreach : (portMachine env params umemCfg 1).Reachable
      ⟨bp, [⟨⟨c, b, k + 2, 0⟩, [], [], [], [], .initSocket⟩], [], []⟩) :
    (portMachine env params umemCfg 1).Reachable
      ⟨{ bp with buffers := Function.update bp.buffers (entry b) frame },
        [⟨⟨c, b, k, 1⟩, [bp.buffers (entry (c + k))], [], [], [], .complete []⟩], [], []⟩ := by
  obtain ⟨bp, rfl⟩ : ∃ bp', bp = { bp' with umemCfg := .tiny } := ⟨bp, by rw [← hcfg]⟩
  subst hframe
  have hfilled : (portMachine env params umemCfg 1).Reachable ⟨{ bp with umemCfg := .tiny },
      [⟨⟨c, b, k + 1, 0⟩, [bp.buffers (entry (c + (k + 1)))], [], [], [], .idle⟩], [], []⟩ :=
    ((hreach.step (.socket 0 true true) rfl).step (.port 0 .transfer) rfl).step (.port 0 .finish)
      rfl
  generalize bp.buffers (entry (c + (k + 1))) = frame at hfilled ⊢
  have hreceived : (portMachine env params umemCfg 1).Reachable ⟨{ bp with umemCfg := .tiny },
      [⟨⟨c, b, k + 1, 0⟩, [], [⟨frame, 60⟩], [], [], .idle⟩], [], []⟩ :=
    hfilled.step (.kernelRx 0 0 ⟨frame, 60⟩)
      (by simp [portMachine, PortSystem.next, PortSystem.replace, PortSystem.sameFrame])
  have hpending : (portMachine env params umemCfg 1).Reachable ⟨{ bp with umemCfg := .tiny },
      [⟨⟨c, b, k + 1, 0⟩, [], [], [], [], .fill 1 []⟩], [], [⟨frame, 60⟩]⟩ :=
    ((hreceived.step (.port 0 .rxBurst) rfl).step (.port 0 (.peek 1)) rfl).step (.port 0 .reserve)
      rfl
  have hreplaced : (portMachine env params umemCfg 1).Reachable ⟨{ bp with umemCfg := .tiny },
      [⟨⟨c, b, k, 0⟩, [bp.buffers (entry (c + k))], [], [], [], .idle⟩], [], [⟨frame, 60⟩]⟩ :=
    (hpending.step (.port 0 .transfer) rfl).step (.port 0 .finish) rfl
  generalize bp.buffers (entry (c + k)) = frame' at hreplaced ⊢
  have hhanded : (portMachine env params umemCfg 1).Reachable ⟨{ bp with umemCfg := .tiny },
      [⟨⟨c, b, k, 0⟩, [frame'], [], [], [], .txReserve [⟨frame, 60⟩]⟩], [], []⟩ :=
    hreplaced.step (.port 0 (.txBurst [⟨frame, 60⟩]))
      (by simp [portMachine, PortSystem.next, PortSystem.replace, Port.step])
  have htransmitted : (portMachine env params umemCfg 1).Reachable ⟨{ bp with umemCfg := .tiny },
      [⟨⟨c, b, k, 0⟩, [frame'], [], [], [frame], .txPeek⟩], [], []⟩ :=
    (hhanded.step (.port 0 .reserve) rfl).step (.kernelTx 0 0 frame)
      (by simp [portMachine, PortSystem.next, PortSystem.replace, PortSystem.sameFrame])
  refine (htransmitted.step (.port 0 (.peek 1)) rfl).step (.port 0 .transfer) ?_
  simp [portMachine, PortSystem.next, PortSystem.replace, Port.step, bcacheProd, hper]

end Ports

/-- A slab that is full and collects the buffers of a cache holds its first buffer twice. -/
theorem stock_not_nodup {bp : Bpool} {caches : List Bcache} {bc : Bcache} (hper : 0 < bp.perSlab)
    (hslab : bc.slabProd ∈ bp.slabs.take bp.nSlabsAvailable) (hbc : bc ∈ caches)
    (hprod : 0 < bc.nBuffersProd) : ¬ (stock bp caches).Nodup := by
  intro hnodup
  have hmem {n : ℕ} (hn : 0 < n) :
      bp.buffers (entry bc.slabProd) ∈ slabEntries bp.buffers bc.slabProd n :=
    List.mem_map.mpr ⟨0, List.mem_range.mpr hn, rfl⟩
  exact List.disjoint_of_nodup_append hnodup (List.mem_flatMap.mpr ⟨_, hslab, hmem hper⟩)
    (List.mem_flatMap.mpr ⟨bc, hbc, List.mem_append_right _ (hmem hprod)⟩)

/-- In the wrapping pool a frame that a port has received and transmitted is in the producer slab
of its cache, which is also a full slab of the pool. -/
theorem frame_in_two_places : ∃ st, (portMachine .granting .wrapping .tiny 1).Reachable st ∧
      ¬ (st.places.map BpoolParams.wrapping.frame).Nodup := by
  have hget {i : ℕ} (hi : i < 2 ^ 31) := BpoolParams.wrapping_reserved .tiny hi
  have hstart : (portMachine .granting .wrapping .tiny 1).Reachable
      ⟨BpoolParams.wrapping.pool .tiny, [], [], []⟩ := .start ⟨_, rfl, rfl⟩
  have hchecked := hstart.of_run (run_init_check (n := 2 ^ 31 - 2) (k := 2 ^ 30 - 2)
    (BpoolParams.wrapping_slabs .tiny) (by decide) (by decide) rfl (by decide)
    (hget (by decide)) (hget (by decide)))
  refine ⟨_, reachable_of_forwarding rfl (by decide) rfl hchecked, fun hnodup => ?_⟩
  have hstock := (hnodup.of_map _).of_append_left.of_append_left
  refine stock_not_nodup ?_ ?_ List.mem_cons_self ?_ hstock
  · decide
  · decide
  · decide

end Hack.Xsk
