import Hack.Machine
import Hack.Xsk.Slabs

/-!
# Ports and the four rings they share with the kernel

This file embeds `port_init`, `port_free`, `port_rx_burst`, and `port_tx_burst`
of `ebpf-xdp/xsk/af_rxtx.c`. Ports run on different threads, so a call is a
sequence of steps: one for each call of a cache function, one for each answer
of the ring library. A port has one program counter, because calls on one port
do not overlap. A ring is the list of entries its reader has not taken yet: a
peeked entry has left it, a reserved one enters it when it is submitted. The
kernel may take fill and transmit entries in any order and may change the
offset of an address inside its frame. How many entries a peek finds and when a
reservation succeeds are the kernel's choice; a fill ring has `fill_size`
entries.
-/

namespace Hack.Xsk

/-- The address and length of a received or transmitted packet. -/
structure Desc where
  /-- The position of the packet in the shared memory. -/
  addr : ℕ
  /-- The number of bytes of the packet. -/
  len : ℕ
  deriving DecidableEq

/-- Where the call in progress on a port stands. -/
inductive PortPc
  /-- No call is in progress. -/
  | idle
  /-- `port_init` after `bcache_init`, before the two size checks. -/
  | initCheck
  /-- `port_init` after the size checks, before the socket is created. -/
  | initSocket
  /-- `port_rx_burst` about to peek at most `n` received packets. -/
  | rxPeek (n : ℕ)
  /-- `port_rx_burst` waiting for `m` free entries of the fill ring. -/
  | rxReserve (m : ℕ)
  /-- The replenishing loop, with the iterations left and the addresses written. -/
  | fill (left : ℕ) (addrs : List ℕ)
  /-- `port_tx_burst` waiting for room for its burst. -/
  | txReserve (descs : List Desc)
  /-- `port_tx_burst` about to peek the completion ring. -/
  | txPeek
  /-- The completion loop, with the addresses not yet given to the cache. -/
  | complete (addrs : List ℕ)
  deriving DecidableEq

/-- `struct port`: its cache, its rings, and the state of the call on it. -/
structure Port where
  /-- The cache of free buffers. -/
  bc : Bcache
  /-- The fill ring: empty frames for the kernel. -/
  umemFq : List ℕ
  /-- The receive ring. -/
  rxq : List Desc
  /-- The transmit ring. -/
  txq : List Desc
  /-- The completion ring: frames whose transmission has ended. -/
  umemCq : List ℕ
  /-- The state of the call in progress. -/
  pc : PortPc

/-- A port of `port_init` with its new cache and no socket yet. -/
def Port.fresh (bc : Bcache) : Port := ⟨bc, [], [], [], [], .initCheck⟩

/-- What the call in progress on a port does next. -/
inductive PortStep
  /-- `port_rx_burst` is called and checks the cache. -/
  | rxBurst
  /-- `port_tx_burst` is called with a burst of received packets. -/
  | txBurst (descs : List Desc)
  /-- `xsk_ring_cons__peek` finds `m` entries. -/
  | peek (m : ℕ)
  /-- `xsk_ring_prod__reserve` succeeds. -/
  | reserve
  /-- One iteration of a loop around `bcache_cons` or `bcache_prod`. -/
  | transfer
  /-- The submit or release after such a loop. -/
  | finish

/-- The pool, the received packets not yet submitted, and the port after a step
of the call on the port. -/
def Port.step (maxBurstRx : ℕ) (bp : Bpool) (pending : List Desc) (p : Port) :
    PortStep → Option (Bpool × List Desc × Port)
  | .rxBurst =>
    match p.pc with
    | .idle => do
      let (bp, bc, n) ← bcacheConsCheck bp p.bc maxBurstRx
      return (bp, pending, { p with bc := bc, pc := if n = 0 then .idle else .rxPeek n })
    | _ => none
  | .txBurst descs =>
    match p.pc with
    | .idle =>
      if descs.Subperm pending then
        some (bp, pending.diff descs, { p with pc := .txReserve descs })
      else none
    | _ => none
  | .peek m =>
    match p.pc with
    | .rxPeek n =>
      if m ≤ n ∧ m ≤ p.rxq.length then
        some (bp, pending ++ p.rxq.take m,
          { p with rxq := p.rxq.drop m, pc := if m = 0 then .idle else .rxReserve m })
      else none
    | .txPeek =>
      if m ≤ bp.umemCfg.compSize.toNat ∧ m ≤ p.umemCq.length then
        some (bp, pending,
          { p with umemCq := p.umemCq.drop m, pc := .complete (p.umemCq.take m) })
      else none
    | _ => none
  | .reserve =>
    match p.pc with
    | .rxReserve m =>
      if p.umemFq.length + m ≤ bp.umemCfg.fillSize.toNat then
        some (bp, pending, { p with pc := .fill m [] })
      else none
    | .txReserve descs => some (bp, pending, { p with txq := p.txq ++ descs, pc := .txPeek })
    | _ => none
  | .transfer =>
    match p.pc with
    | .fill (left + 1) addrs => do
      let (addr, bc) ← bcacheCons bp p.bc
      return (bp, pending, { p with bc := bc, pc := .fill left (addrs ++ [addr]) })
    | .complete (addr :: addrs) => do
      let (bp, bc) ← bcacheProd bp p.bc addr
      return (bp, pending, { p with bc := bc, pc := .complete addrs })
    | _ => none
  | .finish =>
    match p.pc with
    | .fill 0 addrs => some (bp, pending, { p with umemFq := p.umemFq ++ addrs, pc := .idle })
    | .complete [] => some (bp, pending, { p with pc := .idle })
    | _ => none

/-- What a step of a call can do, one case for each branch of `Port.step`. -/
inductive Port.Transition (maxBurstRx : ℕ) (bp : Bpool) (pending : List Desc) (p : Port) :
    PortStep → Bpool → List Desc → Port → Prop
  /-- The cache is checked; a count of zero ends the call. -/
  | check {bp' : Bpool} {bc : Bcache} {n : ℕ} (hpc : p.pc = .idle)
      (hcheck : bcacheConsCheck bp p.bc maxBurstRx = some (bp', bc, n)) :
      Transition maxBurstRx bp pending p .rxBurst bp' pending
        { p with bc := bc, pc := if n = 0 then .idle else .rxPeek n }
  /-- A burst is handed over by a thread. -/
  | handOver {descs : List Desc} (hpc : p.pc = .idle) (hsub : descs.Subperm pending) :
      Transition maxBurstRx bp pending p (.txBurst descs) bp (pending.diff descs)
        { p with pc := .txReserve descs }
  /-- Received packets are read; finding none ends the call. -/
  | receive {n m : ℕ} (hpc : p.pc = .rxPeek n) (hle : m ≤ n) (hlength : m ≤ p.rxq.length) :
      Transition maxBurstRx bp pending p (.peek m) bp (pending ++ p.rxq.take m)
        { p with rxq := p.rxq.drop m, pc := if m = 0 then .idle else .rxReserve m }
  /-- Completed addresses are read. -/
  | collect {m : ℕ} (hpc : p.pc = .txPeek) : Transition maxBurstRx bp pending p (.peek m) bp pending
        { p with umemCq := p.umemCq.drop m, pc := .complete (p.umemCq.take m) }
  /-- The replenishing loop starts. -/
  | refill {m : ℕ} (hpc : p.pc = .rxReserve m)
      (hroom : p.umemFq.length + m ≤ bp.umemCfg.fillSize.toNat) :
      Transition maxBurstRx bp pending p .reserve bp pending { p with pc := .fill m [] }
  /-- The burst is submitted. -/
  | submit {descs : List Desc} (hpc : p.pc = .txReserve descs) :
      Transition maxBurstRx bp pending p .reserve bp pending
        { p with txq := p.txq ++ descs, pc := .txPeek }
  /-- A free buffer is taken from the cache. -/
  | cons {left addr : ℕ} {addrs : List ℕ} {bc : Bcache} (hpc : p.pc = .fill (left + 1) addrs)
      (hcons : bcacheCons bp p.bc = some (addr, bc)) :
      Transition maxBurstRx bp pending p .transfer bp pending
        { p with bc := bc, pc := .fill left (addrs ++ [addr]) }
  /-- A completed buffer is given to the cache. -/
  | prod {addr : ℕ} {addrs : List ℕ} {bp' : Bpool} {bc : Bcache}
      (hpc : p.pc = .complete (addr :: addrs)) (hprod : bcacheProd bp p.bc addr = some (bp', bc)) :
      Transition maxBurstRx bp pending p .transfer bp' pending
        { p with bc := bc, pc := .complete addrs }
  /-- The fill ring is submitted. -/
  | filled {addrs : List ℕ} (hpc : p.pc = .fill 0 addrs) :
      Transition maxBurstRx bp pending p .finish bp pending
        { p with umemFq := p.umemFq ++ addrs, pc := .idle }
  /-- The completion ring is released. -/
  | completed (hpc : p.pc = .complete []) :
      Transition maxBurstRx bp pending p .finish bp pending { p with pc := .idle }

/-- Every step of a call is one of the transitions. -/
theorem Port.transition_of_step {maxBurstRx : ℕ} {bp bp' : Bpool} {pending pending' : List Desc}
    {p p' : Port} {step : PortStep}
    (hstep : p.step maxBurstRx bp pending step = some (bp', pending', p')) :
    p.Transition maxBurstRx bp pending step bp' pending' p' := by
  unfold Port.step at hstep
  split at hstep <;> split at hstep
  next hpc =>
    simp only [Option.bind_eq_bind, Option.bind_eq_some_iff, Option.pure_def,
      Option.some.injEq, Prod.exists, Prod.mk.injEq] at hstep
    obtain ⟨_, _, _, hcheck, rfl, rfl, rfl⟩ := hstep
    exact .check hpc hcheck
  · cases hstep
  next hpc =>
    simp only [Option.ite_none_right_eq_some, Option.some.injEq, Prod.mk.injEq] at hstep
    obtain ⟨hsub, rfl, rfl, rfl⟩ := hstep
    exact .handOver hpc hsub
  · cases hstep
  next hpc =>
    simp only [Option.ite_none_right_eq_some, Option.some.injEq, Prod.mk.injEq] at hstep
    obtain ⟨⟨hle, hlength⟩, rfl, rfl, rfl⟩ := hstep
    exact .receive hpc hle hlength
  next hpc =>
    simp only [Option.ite_none_right_eq_some, Option.some.injEq, Prod.mk.injEq] at hstep
    obtain ⟨-, rfl, rfl, rfl⟩ := hstep
    exact .collect hpc
  · cases hstep
  next hpc =>
    simp only [Option.ite_none_right_eq_some, Option.some.injEq, Prod.mk.injEq] at hstep
    obtain ⟨hroom, rfl, rfl, rfl⟩ := hstep
    exact .refill hpc hroom
  next hpc =>
    cases hstep
    exact .submit hpc
  · cases hstep
  next hpc =>
    simp only [Option.bind_eq_bind, Option.bind_eq_some_iff, Option.pure_def,
      Option.some.injEq, Prod.exists, Prod.mk.injEq] at hstep
    obtain ⟨_, _, hcons, rfl, rfl, rfl⟩ := hstep
    exact .cons hpc hcons
  next hpc =>
    simp only [Option.bind_eq_bind, Option.bind_eq_some_iff, Option.pure_def,
      Option.some.injEq, Prod.exists, Prod.mk.injEq] at hstep
    obtain ⟨_, _, hprod, rfl, rfl, rfl⟩ := hstep
    exact .prod hpc hprod
  · cases hstep
  next hpc =>
    cases hstep
    exact .filled hpc
  next hpc =>
    cases hstep
    exact .completed hpc
  · cases hstep

/-- A pool, the ports on it, and the packets between receipt and submission. -/
structure PortSystem where
  /-- The shared pool. -/
  bp : Bpool
  /-- The ports, those that `port_init` is still building included. -/
  ports : List Port
  /-- Caches of ports that `port_init` gave up without freeing them. -/
  leaked : List Bcache
  /-- The packets in the bursts of the forwarding threads. -/
  pending : List Desc

/-- A step of a port system; a port is named by its list position. -/
inductive PortLabel
  /-- `port_init` up to `bcache_init`, with the outcomes of the two `calloc`s. -/
  | init (calloc callocCache : Bool)
  /-- The two size checks of `port_init`. -/
  | check (i : ℕ)
  /-- The rest of `port_init` before the fill ring, with the outcomes of
  `xsk_socket__create_shared` and `xsk_socket__update_xskmap`. -/
  | socket (i : ℕ) (created mapped : Bool)
  /-- A step of a call on a port. -/
  | port (i : ℕ) (step : PortStep)
  /-- The kernel receives a packet into the `k`th frame of the fill ring. -/
  | kernelRx (i k : ℕ) (desc : Desc)
  /-- The kernel ends the `k`th transmission and reports an address. -/
  | kernelTx (i k addr : ℕ)
  /-- `port_free` on a port without a call in progress. -/
  | free (i : ℕ)

/-- `port_free`: the cache is freed, and the frames in the rings are given up. -/
def portFree (st : PortSystem) (i : ℕ) : Option PortSystem := do
  let p ← st.ports[i]?
  let bp ← bcacheFree st.bp p.bc
  return { st with bp := bp, ports := st.ports.eraseIdx i }

namespace PortSystem

/-- The system after a port has changed together with the pool and the bursts. -/
def replace (st : PortSystem) (i : ℕ) (bp : Bpool) (pending : List Desc) (p : Port) : PortSystem :=
  { st with bp := bp, ports := st.ports.set i p, pending := pending }

/-- The size checks of `port_init` on its new port. -/
def initCheck (st : PortSystem) (i : ℕ) (p : Port) : Option PortSystem :=
  let umemFqSize := st.bp.umemCfg.fillSize.toNat
  if bcacheSlabSize st.bp < umemFqSize then portFree st i
  else do
    let (bp, bc, count) ← bcacheConsCheck st.bp p.bc umemFqSize
    if count < umemFqSize then portFree (st.replace i bp st.pending { p with bc := bc }) i
    else return st.replace i bp st.pending { p with bc := bc, pc := .initSocket }

/-- The socket of `port_init`: a failed creation frees the port, a failed map
update returns without freeing it. -/
def initSocket (st : PortSystem) (i : ℕ) (p : Port) (created mapped : Bool) : Option PortSystem :=
  if !created then portFree st i
  else if !mapped then
    some { st with ports := st.ports.eraseIdx i, leaked := p.bc :: st.leaked }
  else some (st.replace i st.bp st.pending { p with pc := .fill st.bp.umemCfg.fillSize.toNat [] })

/-- Whether two addresses lie in the same frame of the shared memory. -/
def sameFrame (st : PortSystem) (addr addr' : ℕ) : Bool :=
  addr / st.bp.params.bufferSize.toNat = addr' / st.bp.params.bufferSize.toNat

/-- The system after a step. -/
def next (maxBurstRx : ℕ) (st : PortSystem) : PortLabel → Option PortSystem
  | .init calloc callocCache =>
    if !calloc then some st
    else do
      let (bp, bc) ← bcacheInit st.bp callocCache
      return { st with bp := bp, ports := st.ports ++ (bc.map Port.fresh).toList }
  | .check i => do
    let p ← st.ports[i]?
    if p.pc = .initCheck then st.initCheck i p else none
  | .socket i created mapped => do
    let p ← st.ports[i]?
    if p.pc = .initSocket then st.initSocket i p created mapped else none
  | .port i step => do
    let p ← st.ports[i]?
    let (bp, pending, p') ← p.step maxBurstRx st.bp st.pending step
    return st.replace i bp pending p'
  | .kernelRx i k desc => do
    let p ← st.ports[i]?
    let addr ← p.umemFq[k]?
    if st.sameFrame desc.addr addr then
      some (st.replace i st.bp st.pending
        { p with umemFq := p.umemFq.eraseIdx k, rxq := p.rxq ++ [desc] })
    else none
  | .kernelTx i k addr => do
    let p ← st.ports[i]?
    let desc ← p.txq[k]?
    if st.sameFrame addr desc.addr then
      some (st.replace i st.bp st.pending
        { p with txq := p.txq.eraseIdx k, umemCq := p.umemCq ++ [addr] })
    else none
  | .free i => do
    let p ← st.ports[i]?
    if p.pc = .idle then portFree st i else none

end PortSystem

/-- The port system that starts with a successful `bpool_init`. -/
def portMachine (env : InitEnv) (params : BpoolParams) (umemCfg : XskUmemConfig)
    (maxBurstRx : ℕ) : Machine PortSystem PortLabel where
  start st := ∃ bp, bpoolInit env params umemCfg = some bp ∧ st = ⟨bp, [], [], []⟩
  next := PortSystem.next maxBurstRx

end Hack.Xsk
