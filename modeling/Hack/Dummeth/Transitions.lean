import Hack.Custody
import Hack.Dummeth.Threads

/-!
# What a step of the driver can do

The step function of an operation is inverted once: a transition gives the
program counter, the devices after the step, and the counters that take its place,
with everything the step found out on the way. The proofs about the driver split
on transitions and never unfold the step function. An event of the system is
either a call or a transition of one program counter among all others, whose order
does not matter; when operations run one at a time, there are no others.
-/

namespace Hack.Dummeth

/-- The devices after a frame was handed to the network stack, if a buffer could be
allocated for it. -/
def Devices.handOn (s : Devices) (d : DevId) (pkt : Packet) (skbAlloc : Bool) : Devices :=
  { s with delivered :=
      if skbAlloc then (s.deliver d (pkt.data.take pkt.datalen)).delivered else s.delivered }

/-- The counters after a packet was received or dropped. -/
@[simp] def NetDeviceStats.received (stats : NetDeviceStats) (pkt : Packet) (skbAlloc : Bool) :
    NetDeviceStats :=
  if skbAlloc then stats.countRx pkt.datalen else { stats with rxDropped := stats.rxDropped + 1 }

/-- The devices after the transmission-done branch of an interrupt handler, for the
status word it has read. -/
def Devices.freeSkb (s : Devices) (d : DevId) (statusword : Status) : Devices :=
  { s with freedSkbs := s.freedSkbs ++ if statusword.txIntr then (s.priv d).skb.toList else [] }

/-- The counters after the transmission-done branch of an interrupt handler. -/
def Priv.statsDone (priv : Priv) (statusword : Status) : NetDeviceStats :=
  if statusword.txIntr then priv.countTx else priv.stats

/-- The private data after `dummeth_napi_interrupt`. -/
@[simp] def Priv.napiInterrupted (priv : Priv) : Priv :=
  { priv with
    status := ⟨false, false⟩
    rxIntEnabled := priv.rxIntEnabled && !priv.status.rxIntr
    napi := if priv.status.rxIntr then priv.napi.schedule else priv.napi
    stats := priv.statsDone priv.status
    skb := if priv.status.txIntr then none else priv.skb }

/-- Freeing a buffer is not seen in the private data. -/
@[simp]
theorem Devices.priv_freeSkb (s : Devices) (d : DevId) (statusword : Status) :
    (s.freeSkb d statusword).priv = s.priv := rfl

/-- Handing a frame on is not seen in the private data. -/
@[simp]
theorem Devices.priv_handOn (s : Devices) (d : DevId) (pkt : Packet) (skbAlloc : Bool) :
    (s.handOn d pkt skbAlloc).priv = s.priv := rfl

/-- A change of private data leaves alone what it does not write. -/
theorem Devices.get_modify {β : Type} (get : Priv → β) (s : Devices) {e : DevId} {f : Priv → Priv}
    (hf : get (f (s.priv e)) = get (s.priv e)) (d : DevId) :
    get ((s.modify e f).priv d) = get (s.priv d) := by
  rcases eq_or_ne d e with rfl | hne
  · rw [s.priv_modify, hf]
  · rw [s.priv_modify_of_ne hne]

/-- The frame of a packet is handed on, and the packet is counted. -/
theorem rx_eq (s : Devices) (d : DevId) (a : Addr) (skbAlloc : Bool) :
    rx s d a skbAlloc = (s.heap.lookup a).map fun pkt =>
      (s.handOn d pkt skbAlloc).modify d fun priv =>
        { priv with stats := priv.stats.received pkt skbAlloc } := by
  cases skbAlloc <;> rfl

/-- `dummeth_napi_interrupt` frees the buffer and changes private data. -/
theorem napiInterrupt_eq (s : Devices) (d : DevId) :
    napiInterrupt s d = (s.freeSkb d (s.priv d).status).modify d Priv.napiInterrupted := by
  have hpriv : (s.freeSkb d (s.priv d).status).modify d Priv.napiInterrupted =
      { s.freeSkb d (s.priv d).status with
        priv := Function.update s.priv d (s.priv d).napiInterrupted } := rfl
  rw [hpriv]
  cases hrx : (s.priv d).status.rxIntr <;> cases htx : (s.priv d).status.txIntr <;>
    simp [napiInterrupt, hrx, htx, napiTxDone, napiReceive, rxInts, clearStatus, Devices.modify,
        Devices.freeSkb, Priv.statsDone, Priv.countTx]

/-- The completion of a poll changes private data. -/
theorem pollComplete_eq (s : Devices) (d : DevId) :
    pollComplete s d = s.modify d fun priv => { priv with
      napi := priv.napi.completeDone.1
      rxIntEnabled := priv.rxIntEnabled || !priv.napi.missed } := by
  unfold pollComplete
  cases hmissed : (s.priv d).napi.missed <;>
    simp [napiComplete, rxInts, Napi.completeDone, hmissed, Devices.modify]

/-- The steps from a program counter: the devices after the step and the counters
that take its place. -/
inductive Transition (cfg : Config) (s : Devices) (choice : Choice) :
    Pc → Devices → List Pc → Prop
  | xmitStore {d skb frame} : Transition cfg s choice (.xmitStore d skb frame)
      (s.modify d fun priv => { priv with skb := some skb }) [.hwTx d (padFrame frame)]
  | tooShort {d buf} : buf.length < 34 → Transition cfg s choice (.hwTx d buf) s []
  | outOfPool {d buf} : 34 ≤ buf.length → (s.priv d).locked = false → (s.priv d).ppool = none →
      Transition cfg s choice (.hwTx d buf) (s.modify d fun priv => { priv with locked := true }) []
  | getTxBuffer {d buf a pkt} : 34 ≤ buf.length → (s.priv d).locked = false →
      (s.priv d).ppool = some a → s.heap.lookup a = some pkt →
      Transition cfg s choice (.hwTx d buf)
        (s.modify d fun priv => { priv with
          ppool := pkt.next, queueStopped := priv.queueStopped || pkt.next.isNone })
        [.hwTxFill d (rewriteFrame cfg buf) a]
  | fill {d buf a pkt} : s.heap.lookup a = some pkt → Transition cfg s choice (.hwTxFill d buf a)
        { s with heap := s.heap.insert a { pkt with datalen := buf.length, data := buf } }
        [.hwTxEnqueue d buf.length a]
  | enqueue {d len a pkt} : (s.priv d.twin).locked = false → s.heap.lookup a = some pkt →
      Transition cfg s choice (.hwTxEnqueue d len a)
        ({ s with heap := s.heap.insert a { pkt with next := (s.priv d.twin).rxQueue } }.modify
          d.twin fun priv => { priv with rxQueue := some a })
        [.hwTxTestRx d len]
  | testRxOn {d len} : (s.priv d.twin).rxIntEnabled = true →
      Transition cfg s choice (.hwTxTestRx d len) s [.hwTxReadRx d len]
  | testRxOff {d len} : (s.priv d.twin).rxIntEnabled = false →
      Transition cfg s choice (.hwTxTestRx d len) s [.hwTxLen d len]
  | readRx {d len} : Transition cfg s choice (.hwTxReadRx d len) s
      [.hwTxWriteRx d len (s.priv d.twin).status]
  | writeRx {d len old} : Transition cfg s choice (.hwTxWriteRx d len old)
      (s.modify d.twin fun priv => { priv with status := { old with rxIntr := true } })
      [cfg.interrupt d.twin, .hwTxLen d len]
  | storeLen {d len} : Transition cfg s choice (.hwTxLen d len)
      (s.modify d fun priv => { priv with txPacketlen := len }) [.hwTxReadTx d]
  | readTx {d} : Transition cfg s choice (.hwTxReadTx d) s [.hwTxWriteTx d (s.priv d).status]
  | writeTx {d old} : Transition cfg s choice (.hwTxWriteTx d old)
      (s.modify d fun priv => { priv with status := { old with txIntr := true } })
      [.hwTxLockup d]
  | lockup {d} : lockupDue cfg (s.priv d) = true → Transition cfg s choice (.hwTxLockup d)
        (s.modify d fun priv => { priv with queueStopped := true }) []
  | noLockup {d} : lockupDue cfg (s.priv d) = false →
      Transition cfg s choice (.hwTxLockup d) s [cfg.interrupt d]
  | regularIdle {d} : (s.priv d).locked = false →
      ((s.priv d).status.rxIntr = true → (s.priv d).rxQueue = none) →
      Transition cfg s choice (.regularInterrupt d)
        ((s.freeSkb d (s.priv d).status).modify d fun priv => { priv with
          status := ⟨false, false⟩, stats := priv.statsDone priv.status }) []
  | regularReceive {d a pkt} : (s.priv d).locked = false → (s.priv d).status.rxIntr = true →
      (s.priv d).rxQueue = some a → s.heap.lookup a = some pkt →
      Transition cfg s choice (.regularInterrupt d)
        (((s.handOn d pkt choice.skbAlloc).freeSkb d (s.priv d).status).modify d fun priv =>
          { priv with
            status := ⟨false, false⟩
            rxQueue := pkt.next
            stats := Priv.statsDone
              { priv with stats := priv.stats.received pkt choice.skbAlloc } priv.status })
        [.release a]
  | napiInterrupt {d} : (s.priv d).locked = false → Transition cfg s choice (.napiInterrupt d)
        ((s.freeSkb d (s.priv d).status).modify d Priv.napiInterrupted) []
  | release {a pkt} : s.heap.lookup a = some pkt → (s.priv pkt.dev).locked = false →
      Transition cfg s choice (.release a)
        ({ s with heap := s.heap.insert a { pkt with next := (s.priv pkt.dev).ppool } }.modify
          pkt.dev fun priv => { priv with ppool := some a })
        [.releaseStopped a]
  | releaseStopped {a} {stopped : Bool} :
      (∀ pkt, s.heap.lookup a = some pkt → stopped = (s.priv pkt.dev).queueStopped) →
      Transition cfg s choice (.releaseStopped a) s (if stopped then [.releaseNext a] else [])
  | releaseNext {a} {wasEmpty : Bool} :
      (∀ pkt, s.heap.lookup a = some pkt → wasEmpty = pkt.next.isNone) →
      Transition cfg s choice (.releaseNext a) s (if wasEmpty then [.releaseWake a] else [])
  | releaseWake {a} : Transition cfg s choice (.releaseWake a)
      (s.modify (s.packetDev a choice) fun priv => { priv with queueStopped := false }) []
  | pollAgain {d budget} {npackets : ℕ} : (npackets : ℤ) < budget → (s.priv d).rxQueue.isSome →
      Transition cfg s choice (.pollTest d budget npackets) s [.pollDequeue d budget npackets]
  | pollDone {d budget} {npackets : ℕ} : (npackets : ℤ) < budget → (s.priv d).rxQueue = none →
      Transition cfg s choice (.pollTest d budget npackets) s [.pollComplete d]
  | pollSpent {d budget} {npackets : ℕ} : budget ≤ (npackets : ℤ) →
      Transition cfg s choice (.pollTest d budget npackets) s []
  | pollDequeue {d budget npackets a pkt} : (s.priv d).locked = false →
      (s.priv d).rxQueue = some a → s.heap.lookup a = some pkt →
      Transition cfg s choice (.pollDequeue d budget npackets)
        (s.modify d fun priv => { priv with rxQueue := pkt.next }) [.pollRx d budget npackets a]
  | pollRx {d budget npackets a pkt} : s.heap.lookup a = some pkt →
      Transition cfg s choice (.pollRx d budget npackets a)
        ((s.handOn d pkt choice.skbAlloc).modify d fun priv =>
          { priv with stats := priv.stats.received pkt choice.skbAlloc })
        [.release a, .pollTest d budget (npackets + 1)]
  | pollComplete {d} : (s.priv d).locked = false → Transition cfg s choice (.pollComplete d)
        (s.modify d fun priv => { priv with
          napi := priv.napi.completeDone.1
          rxIntEnabled := priv.rxIntEnabled || !priv.napi.missed }) []
  | timeoutReadTx {d} : Transition cfg s choice (.timeoutReadTx d) s
      [.timeoutWriteTx d (s.priv d).status]
  | timeoutWriteTx {d old} : Transition cfg s choice (.timeoutWriteTx d old)
      (s.modify d fun priv => { priv with status := { old with txIntr := true } })
      [cfg.interrupt d, .timeoutErrors d]
  | timeoutErrors {d} : Transition cfg s choice (.timeoutErrors d)
      (s.modify d fun priv =>
        { priv with stats := { priv.stats with txErrors := priv.stats.txErrors + 1 } })
      [.timeoutRebuild d]
  | timeoutRebuild {d t s'} : (s.priv d).locked = false → teardownPool s d = some t →
      setupPool cfg t d choice.kmalloc = some s' →
      Transition cfg s choice (.timeoutRebuild d) s' [.timeoutWake d]
  | timeoutWake {d} : Transition cfg s choice (.timeoutWake d)
      (s.modify d fun priv => { priv with queueStopped := false }) []
  | devOpen {d} : Transition cfg s choice (.devOpen d)
      (s.modify d fun priv => { priv with
        napi := if cfg.useNapi then ⟨true, false, false⟩ else priv.napi, queueStopped := false }) []
  | devStop {d} : Transition cfg s choice (.devStop d)
      (s.modify d fun priv => { priv with queueStopped := true })
      (if cfg.useNapi then [.devDisable d] else [])
  | devDisable {d} : (s.priv d).napi.sched = false → Transition cfg s choice (.devDisable d)
      (s.modify d fun priv => { priv with napi := { priv.napi with enabled := false } }) []

variable {cfg : Config} {s s' : Devices} {choice : Choice} {pc : Pc} {pcs : List Pc} {d : DevId}
  {r : Devices × Option Addr} {kmalloc : ℕ → Option Addr} {i : ℕ}

/-- The section of `dummeth_get_tx_buffer` in the step of a transmission. -/
theorem transition_of_getTxBuffer {buf : List UInt8} (hlen : 34 ≤ buf.length)
    (hlocked : (s.priv d).locked = false) (hr : getTxBuffer s d = some r) :
    Transition cfg s choice (.hwTx d buf) r.1
      (r.2.toList.map fun a => .hwTxFill d (rewriteFrame cfg buf) a) := by
  unfold getTxBuffer at hr
  cases hpool : (s.priv d).ppool with
  | none =>
    simp only [hpool, Option.some_inj] at hr
    subst hr
    exact .outOfPool hlen hlocked hpool
  | some a =>
    simp only [hpool] at hr
    obtain ⟨pkt, hpkt, rfl⟩ := Option.map_eq_some_iff.mp hr
    exact .getTxBuffer hlen hlocked hpool hpkt

/-- The end of `dummeth_regular_interrupt` when no packet was received. -/
theorem regularTxDone_of_idle (s : Devices) (d : DevId) :
    (if (s.priv d).status.txIntr then regularTxDone (clearStatus s d) d else clearStatus s d) =
      (s.freeSkb d (s.priv d).status).modify d fun priv =>
        { priv with status := ⟨false, false⟩, stats := priv.statsDone priv.status } := by
  cases htx : (s.priv d).status.txIntr <;>
    simp [regularTxDone, clearStatus, Devices.freeSkb, Devices.modify, Priv.statsDone,
      Priv.countTx, htx]

/-- The end of `dummeth_regular_interrupt` after a packet was received. -/
theorem regularTxDone_of_received (s : Devices) (d : DevId) (pkt : Packet) (skbAlloc : Bool)
    {t : Devices}
    (ht : t = (((clearStatus s d).modify d fun priv => { priv with rxQueue := pkt.next }).handOn d
      pkt skbAlloc).modify d fun priv => { priv with stats := priv.stats.received pkt skbAlloc }) :
    (if (s.priv d).status.txIntr then regularTxDone t d else t) =
      ((s.handOn d pkt skbAlloc).freeSkb d (s.priv d).status).modify d fun priv =>
        { priv with
          status := ⟨false, false⟩
          rxQueue := pkt.next
          stats := Priv.statsDone { priv with stats := priv.stats.received pkt skbAlloc }
            priv.status } := by
  subst ht
  cases htx : (s.priv d).status.txIntr <;>
    simp [regularTxDone, clearStatus, Devices.freeSkb, Devices.handOn, Devices.deliver,
      Devices.modify, Priv.statsDone, Priv.countTx, htx]

/-- The section of `dummeth_regular_interrupt`. -/
theorem transition_of_regularInterrupt (hlocked : (s.priv d).locked = false)
    (hr : regularInterrupt s d choice.skbAlloc = some r) :
    Transition cfg s choice (.regularInterrupt d) r.1 (r.2.toList.map .release) := by
  obtain ⟨⟨t, a⟩, hreceive, rfl⟩ := Option.map_eq_some_iff.mp hr
  have hqueue : ((clearStatus s d).priv d).rxQueue = (s.priv d).rxQueue := by simp [clearStatus]
  split_ifs at hreceive with hrx
  · obtain ⟨⟨t', b⟩, hdequeue, hrest⟩ := Option.bind_eq_some_iff.mp hreceive
    unfold dequeueBuf at hdequeue
    rw [hqueue] at hdequeue
    cases hhead : (s.priv d).rxQueue with
    | none =>
      rw [hhead] at hdequeue
      cases hdequeue
      cases hrest
      rw [regularTxDone_of_idle]
      exact .regularIdle hlocked fun _ => hhead
    | some a =>
      rw [hhead] at hdequeue
      obtain ⟨pkt, hpkt, heq⟩ := Option.map_eq_some_iff.mp hdequeue
      cases heq
      obtain ⟨t'', hrx', heq⟩ := Option.map_eq_some_iff.mp hrest
      cases heq
      rw [rx_eq] at hrx'
      obtain ⟨pkt', hpkt', hreceived⟩ := Option.map_eq_some_iff.mp hrx'
      cases hpkt.symm.trans hpkt'
      rw [regularTxDone_of_received s d pkt choice.skbAlloc hreceived.symm]
      exact .regularReceive hlocked hrx hhead hpkt
  · cases hreceive
    rw [regularTxDone_of_idle]
    exact .regularIdle hlocked fun h => absurd h hrx

/-- Every step is a transition. -/
theorem transition_of_step (hstep : step cfg s pc choice = some (s', pcs)) :
    Transition cfg s choice pc s' pcs := by
  cases pc with
  | hwTx d buf =>
    simp only [step] at hstep
    split_ifs at hstep with hlen
    · cases hstep
      exact .tooShort hlen
    · obtain ⟨hlocked, hbody⟩ := Devices.locking_eq_some hstep
      obtain ⟨⟨t, r⟩, hr, heq⟩ := Option.map_eq_some_iff.mp hbody
      have htrans : Transition cfg s choice (.hwTx d buf) t _ :=
        transition_of_getTxBuffer (not_lt.mp hlen) hlocked hr
      cases r <;> cases heq <;> exact htrans
  | hwTxFill d buf a =>
    obtain ⟨t, ht, heq⟩ := Option.map_eq_some_iff.mp hstep
    obtain ⟨pkt, hpkt, rfl⟩ := Option.map_eq_some_iff.mp ht
    cases heq
    exact .fill hpkt
  | hwTxEnqueue d len a =>
    obtain ⟨hlocked, hbody⟩ := Devices.locking_eq_some hstep
    obtain ⟨t, ht, heq⟩ := Option.map_eq_some_iff.mp hbody
    obtain ⟨t', ht', rfl⟩ := Option.map_eq_some_iff.mp ht
    obtain ⟨pkt, hpkt, rfl⟩ := Option.map_eq_some_iff.mp ht'
    cases heq
    exact .enqueue hlocked hpkt
  | hwTxTestRx d len =>
    cases hstep
    split_ifs with hrx
    · exact .testRxOn hrx
    · exact .testRxOff (by simpa using hrx)
  | hwTxLockup d =>
    simp only [step] at hstep
    split_ifs at hstep with hdue
    · cases hstep
      exact .lockup hdue
    · cases hstep
      exact .noLockup (by simpa using hdue)
  | regularInterrupt d =>
    obtain ⟨hlocked, hbody⟩ := Devices.locking_eq_some hstep
    obtain ⟨r, hr, heq⟩ := Option.map_eq_some_iff.mp hbody
    cases heq
    exact transition_of_regularInterrupt hlocked hr
  | napiInterrupt d =>
    obtain ⟨hlocked, hbody⟩ := Devices.locking_eq_some hstep
    cases hbody
    rw [napiInterrupt_eq]
    exact .napiInterrupt hlocked
  | release a =>
    obtain ⟨pkt, hpkt, hlocking⟩ := Option.bind_eq_some_iff.mp hstep
    obtain ⟨hlocked, hbody⟩ := Devices.locking_eq_some hlocking
    obtain ⟨t, ht, heq⟩ := Option.map_eq_some_iff.mp hbody
    obtain ⟨pkt', hpkt', hwrite⟩ := Option.bind_eq_some_iff.mp ht
    cases hpkt.symm.trans hpkt'
    obtain ⟨t', ht', rfl⟩ := Option.map_eq_some_iff.mp hwrite
    obtain ⟨pkt', hpkt', rfl⟩ := Option.map_eq_some_iff.mp ht'
    cases hpkt.symm.trans hpkt'
    cases heq
    exact .release hpkt hlocked
  | releaseStopped a =>
    cases hstep
    exact .releaseStopped fun pkt hpkt => by rw [hpkt]
  | releaseNext a =>
    cases hstep
    exact .releaseNext fun pkt hpkt => by rw [hpkt]
  | pollTest d budget npackets =>
    cases hstep
    split_ifs with hbudget hqueue
    · exact .pollAgain hbudget hqueue
    · exact .pollDone hbudget (by simpa using hqueue)
    · exact .pollSpent (Int.not_lt.mp hbudget)
  | pollDequeue d budget npackets =>
    obtain ⟨hlocked, hbody⟩ := Devices.locking_eq_some hstep
    obtain ⟨⟨t, r⟩, hdequeue, hrest⟩ := Option.bind_eq_some_iff.mp hbody
    obtain ⟨a, rfl, heq⟩ := Option.map_eq_some_iff.mp hrest
    cases heq
    unfold dequeueBuf at hdequeue
    cases hhead : (s.priv d).rxQueue with
    | none =>
      rw [hhead] at hdequeue
      cases hdequeue
    | some b =>
      rw [hhead] at hdequeue
      obtain ⟨pkt, hpkt, heq⟩ := Option.map_eq_some_iff.mp hdequeue
      cases heq
      exact .pollDequeue hlocked hhead hpkt
  | pollRx d budget npackets a =>
    obtain ⟨t, ht, heq⟩ := Option.map_eq_some_iff.mp hstep
    rw [rx_eq] at ht
    obtain ⟨pkt, hpkt, rfl⟩ := Option.map_eq_some_iff.mp ht
    cases heq
    exact .pollRx hpkt
  | pollComplete d =>
    obtain ⟨hlocked, hbody⟩ := Devices.locking_eq_some hstep
    cases hbody
    rw [pollComplete_eq]
    exact .pollComplete hlocked
  | timeoutRebuild d =>
    obtain ⟨hlocked, hbody⟩ := Devices.locking_eq_some hstep
    obtain ⟨t, hfree, hsetup⟩ := Option.bind_eq_some_iff.mp hbody
    obtain ⟨t', ht', heq⟩ := Option.map_eq_some_iff.mp hsetup
    cases heq
    exact .timeoutRebuild hlocked hfree ht'
  | devDisable d =>
    simp only [step] at hstep
    split_ifs at hstep with hsched
    cases hstep
    exact .devDisable (by simpa using hsched)
  | _ =>
    cases hstep
    constructor

/-- A pool is not empty after it was set up with at least one packet. -/
theorem setupPoolFrom_isSome {n : ℕ} {heap : Heap} {ppool : Option Addr} {r : Heap × Option Addr}
    (halloc : ∀ i, (kmalloc i).isSome) (hsome : 0 < n ∨ ppool.isSome)
    (hr : setupPoolFrom d kmalloc n i heap ppool = some r) : r.2.isSome := by
  fun_induction setupPoolFrom d kmalloc n i heap ppool with
  | case1 i heap ppool =>
    cases hr
    simpa using hsome
  | case2 n i heap ppool hnone =>
    have hsome := halloc i
    simp [hnone] at hsome
  | case3 => cases hr
  | case4 n i heap ppool a ha hfresh ih => exact ih (.inr rfl) hr

/-- Setting up the pool of a device changes the memory and the pool. -/
theorem setupPool_eq (hs : setupPool cfg s d kmalloc = some s') :
    ∃ heap ppool, s' = s.withPool d heap ppool ∧
      ((∀ n, (kmalloc n).isSome) → 1 ≤ cfg.poolSize → ppool.isSome) := by
  obtain ⟨r, hr, rfl⟩ := Option.map_eq_some_iff.mp hs
  refine ⟨r.1, r.2, rfl, fun halloc hsize => setupPoolFrom_isSome halloc (.inl ?_) hr⟩
  omega

/-- Rebuilding the pool of a device changes the memory and the pool. -/
theorem rebuild_eq {t : Devices} (hfree : teardownPool s d = some t)
    (hsetup : setupPool cfg t d kmalloc = some s') : ∃ heap ppool, s' = s.withPool d heap ppool ∧
      ((∀ n, (kmalloc n).isSome) → 1 ≤ cfg.poolSize → ppool.isSome) := by
  obtain ⟨heap, -, rfl⟩ := Option.map_eq_some_iff.mp hfree
  obtain ⟨heap', ppool, rfl, hsome⟩ := setupPool_eq hsetup
  refine ⟨heap', ppool, ?_, hsome⟩
  simp [Devices.withPool, Devices.modify]

/-- The installed interrupt handler is that of the mode. -/
theorem Config.interrupt_cases (cfg : Config) (d : DevId) :
    cfg.useNapi = true ∧ cfg.interrupt d = .napiInterrupt d ∨
      cfg.useNapi = false ∧ cfg.interrupt d = .regularInterrupt d := by
  unfold Config.interrupt
  cases cfg.useNapi <;> simp

/-- What the kernel calls in an interrupt mode: the handler of the mode, polls in NAPI
mode, and `dummeth_hw_tx` only through `dummeth_xmit`. -/
def Op.InMode (cfg : Config) : Op → Prop
  | .hwTx _ _ => False
  | .regularInterrupt _ => cfg.useNapi = false
  | .napiInterrupt _ => cfg.useNapi = true
  | .poll _ _ => cfg.useNapi = true
  | _ => True

/-- A handler is called only in its mode. -/
def Pc.InMode (cfg : Config) : Pc → Prop
  | .regularInterrupt _ => cfg.useNapi = false
  | .napiInterrupt _ => cfg.useNapi = true
  | _ => True

/-- Handlers are called, and stay, in their mode. -/
theorem Transition.inMode {rest : List Pc} (htrans : Transition cfg s choice pc s' pcs)
    (h : ∀ pc' ∈ pc :: rest, pc'.InMode cfg) : ∀ pc' ∈ pcs ++ rest, pc'.InMode cfg := by
  have hinterrupt : ∀ d, (cfg.interrupt d).InMode cfg := fun d => by
    rcases cfg.interrupt_cases d with ⟨hmode, h⟩ | ⟨hmode, h⟩ <;> rw [h] <;> exact hmode
  refine List.forall_mem_append.mpr ⟨?_, (List.forall_mem_cons.mp h).2⟩
  cases htrans with
  | writeRx | timeoutWriteTx | noLockup =>
    exact List.forall_mem_cons.mpr ⟨hinterrupt _, by simp [Pc.InMode]⟩
  | releaseStopped | releaseNext | devStop => split_ifs <;> simp [Pc.InMode]
  | pollRx => simp [Pc.InMode]
  | _ => first | exact List.forall_mem_singleton.mpr trivial | exact List.forall_mem_nil _

/-- A call enters a handler only in its mode. -/
theorem Op.InMode.entry {op : Op} (h : op.InMode cfg) : op.entry.InMode cfg := by
  cases op <;> first | exact h | trivial

/-- What an event does to the devices and to the program counters in progress, whose
order does not matter. -/
inductive System.Move (cfg : Config) (t t' : System) : Event → Prop
  | call {op} : t'.devices = t.devices → t'.pcs.Perm (op.entry :: t.pcs) → Move cfg t t' (.call op)
  | run {i choice pc stack rest pcs} : t.threads[i]? = some (pc :: stack) →
      t.pcs.Perm (pc :: rest) → Transition cfg t.devices choice pc t'.devices pcs →
      t'.pcs.Perm (pcs ++ rest) → Move cfg t t' (.run i choice)

variable {t t' : System} {event : Event}

/-- Every event is a move. -/
theorem System.move_of_next (hnext : t.next cfg event = some t') : t.Move cfg t' event := by
  cases event with
  | call op =>
    cases hnext
    refine .call rfl ?_
    simp [System.pcs, List.perm_append_singleton]
  | run i choice =>
    simp only [System.next] at hnext
    split at hnext
    · rename_i pc stack hget
      obtain ⟨⟨s', pcs⟩, hstep, rfl⟩ := Option.map_eq_some_iff.mp hnext
      have hbefore : t.pcs.Perm (pc :: (stack ++ (t.threads.eraseIdx i).flatMap id)) := by
        simpa [System.pcs] using Custody.flatMap_perm hget id
      refine .run hget hbefore (transition_of_step hstep) ?_
      simpa [System.pcs] using Custody.flatMap_set_perm hget (pcs ++ stack) id
    · cases hnext

/-- Operations run one at a time: one is called only while no other is in progress. -/
def Event.Alone (t : System) : Event → Prop
  | .call _ => t.Idle
  | .run _ _ => True

instance (t : System) (event : Event) : Decidable (event.Alone t) :=
  match event with
  | .call _ => inferInstanceAs (Decidable t.Idle)
  | .run _ _ => .isTrue trivial

/-- Only the operation that was called last may still be in progress. -/
def System.Solo (t : System) : Prop := ∀ stack ∈ t.threads.dropLast, stack = []

/-- What an event does when operations run one at a time. -/
inductive System.SoloMove (cfg : Config) (t t' : System) : Event → Prop
  | call {op} : t.pcs = [] → t'.devices = t.devices → t'.pcs = [op.entry] →
      SoloMove cfg t t' (.call op)
  | run {i choice pc stack pcs} : t.pcs = pc :: stack →
      Transition cfg t.devices choice pc t'.devices pcs → t'.pcs = pcs ++ stack →
      SoloMove cfg t t' (.run i choice)

/-- The operation in progress is the last one. -/
theorem System.Solo.exists_finished {stack : List Pc} (h : t.Solo)
    (hget : t.threads[i]? = some (pc :: stack)) :
    ∃ finished, (∀ stack ∈ finished, stack = []) ∧ t.threads = finished ++ [pc :: stack] ∧
      i = finished.length := by
  rcases List.eq_nil_or_concat t.threads with hnil | ⟨finished, last, hthreads⟩
  · simp [hnil] at hget
  · have hfinished : ∀ stack ∈ finished, stack = [] := by
      simpa [System.Solo, hthreads] using h
    rw [hthreads, List.concat_eq_append] at hget ⊢
    rcases Nat.lt_or_ge i finished.length with hi | hi
    · rw [List.getElem?_append_left hi] at hget
      cases hfinished _ (List.mem_of_getElem? hget)
    · rw [List.getElem?_append_right hi] at hget
      obtain ⟨hlt, hlast⟩ := List.getElem?_eq_some_iff.mp hget
      have hzero : i - finished.length = 0 := by simpa using hlt
      simp only [hzero, List.getElem_cons_zero] at hlast
      exact ⟨finished, hfinished, by rw [hlast], by omega⟩

/-- The program counters of finished operations. -/
theorem System.pcs_of_finished {finished : List (List Pc)} {stack : List Pc}
    (hfinished : ∀ stack ∈ finished, stack = []) :
    System.pcs ⟨s, finished ++ [stack]⟩ = stack := by
  simpa [System.pcs] using hfinished

/-- Operations that run one at a time go on to do so. -/
theorem System.Solo.next (h : t.Solo) (halone : event.Alone t)
    (hnext : t.next cfg event = some t') : t'.Solo ∧ t.SoloMove cfg t' event := by
  cases event with
  | call op =>
    cases hnext
    have hidle : ∀ stack ∈ t.threads, stack = [] := halone
    refine ⟨?_, .call (List.flatMap_eq_nil_iff.mpr hidle) rfl (System.pcs_of_finished hidle)⟩
    simpa [System.Solo] using hidle
  | run i choice =>
    simp only [System.next] at hnext
    split at hnext
    · rename_i pc stack hget
      obtain ⟨⟨s', pcs⟩, hstep, rfl⟩ := Option.map_eq_some_iff.mp hnext
      obtain ⟨finished, hfinished, hthreads, rfl⟩ := h.exists_finished hget
      have hset : t.threads.set finished.length (pcs ++ stack) = finished ++ [pcs ++ stack] := by
        simp [hthreads]
      have hpcs : t.pcs = pc :: stack := by
        simpa [System.pcs, hthreads] using hfinished
      refine ⟨?_, .run hpcs (transition_of_step hstep) ?_⟩
      · simpa [System.Solo, hset] using hfinished
      · rw [hset]
        exact System.pcs_of_finished hfinished
    · cases hnext

end Hack.Dummeth
