import Hack.Dummeth.OwnershipSteps
import Mathlib.Algebra.GroupWithZero.Nat

/-!
# The receive queue and the receive counters

A packet is put on the receive queue of a device by the transmissions of its twin, and
taken off by a poll or by the regular interrupt handler, which then hand its frame on or
drop it. Seen from one device, a step does one of five things: nothing, an arrival, a
removal, the counting of a removed packet, or the last two at once. From this follows
that every arrival is in exactly one place: counted as received, counted as dropped, on
the queue, or in the hands of a poll, of which the kernel runs one at a time for a device.
-/

namespace Hack.Dummeth

open LinkedList

/-- What is observed of the receive path. -/
inductive RxEvent
  /-- `dummeth_enqueue_buf` was called for a device. -/
  | enqueued (d : DevId)
  /-- A packet was counted as received by a device. -/
  | counted (d : DevId) (pkt : Packet)
  /-- A packet was counted as dropped by a device. -/
  | dropped (d : DevId)

/-- The device of an observation. -/
def RxEvent.dev : RxEvent → DevId
  | .enqueued d => d
  | .counted d _ => d
  | .dropped d => d

/-- A call of `dummeth_enqueue_buf` for a device. -/
@[simp] def RxEvent.enqueuedOn (d : DevId) : RxEvent → Bool
  | .enqueued e => e = d
  | _ => false

/-- A packet counted by a device. -/
@[simp] def RxEvent.countedOn (d : DevId) : RxEvent → Option Packet
  | .counted e pkt => if e = d then some pkt else none
  | _ => none

/-- A packet dropped by a device. -/
@[simp] def RxEvent.droppedOn (d : DevId) : RxEvent → Bool
  | .dropped e => e = d
  | _ => false

/-- A packet taken off the queue is counted as received or as dropped. -/
def RxEvent.taken (d : DevId) (skbAlloc : Bool) (pkt : Packet) : RxEvent :=
  if skbAlloc then .counted d pkt else .dropped d

/-- What a step from a program counter does to receive queues and receive counters. -/
def rxEvents (s : Devices) (choice : Choice) : Pc → List RxEvent
  | .hwTxEnqueue d _ _ => [.enqueued d.twin]
  | .pollRx d _ _ a => ((s.heap.lookup a).map (.taken d choice.skbAlloc)).toList
  | .regularInterrupt d =>
    if (s.priv d).status.rxIntr then
      (((s.priv d).rxQueue.bind fun a => s.heap.lookup a).map (.taken d choice.skbAlloc)).toList
    else []
  | _ => []

/-- What an event does to receive queues and receive counters. -/
def observeRx (t : System) : Event → List RxEvent
  | .call _ => []
  | .run i choice => match t.threads[i]? with
    | some (pc :: _) => rxEvents t.devices choice pc
    | _ => []

/-- A poll of a device holds a packet it has not counted yet. -/
def Pc.holdsRx (d : DevId) : Pc → Bool
  | .pollRx e _ _ _ => e = d
  | _ => false

/-- A transmission of a device that has not enqueued its packet yet. -/
def Pc.beforeEnqueue (d : DevId) : Pc → Bool
  | .xmitStore e _ _ => e = d
  | .hwTx e _ => e = d
  | .hwTxFill e _ _ => e = d
  | .hwTxEnqueue e _ _ => e = d
  | _ => false

/-- A poll of a device is in progress. -/
def Pc.polling (d : DevId) : Pc → Bool
  | .pollTest e _ _ => e = d
  | .pollDequeue e _ _ => e = d
  | .pollRx e _ _ _ => e = d
  | .pollComplete e => e = d
  | _ => false

/-- The part of the private data the receive path depends on. -/
def Priv.rxSide (priv : Priv) : Option Addr × UInt64 × UInt64 × UInt64 :=
  (priv.rxQueue, priv.stats.rxPackets, priv.stats.rxBytes, priv.stats.rxDropped)

/-- The counters of the receive path. -/
def NetDeviceStats.rxCounts (stats : NetDeviceStats) : UInt64 × UInt64 × UInt64 :=
  (stats.rxPackets, stats.rxBytes, stats.rxDropped)

/-- The bytes of the frame in a packet. -/
def Packet.frame (pkt : Packet) : List UInt8 := pkt.data.take pkt.datalen

/-- What a step does to the receive path of a device. -/
inductive RxEffect (s s' : Devices) (choice : Choice) (d : DevId) : Pc → List Pc → Prop
  | quiet {pc pcs} : (s'.priv d).rxSide = (s.priv d).rxSide → s'.delivered d = s.delivered d →
      (∀ event ∈ rxEvents s choice pc, event.dev ≠ d) →
      pc.holdsRx d = false → (∀ pc' ∈ pcs, pc'.holdsRx d = false) →
      RxEffect s s' choice d pc pcs
  | enqueue {e len a pkt} : e.twin = d → s.heap.lookup a = some pkt →
      s'.heap.lookup a = some { pkt with next := (s.priv d).rxQueue } →
      (s'.priv d).rxQueue = some a →
      (s'.priv d).stats = (s.priv d).stats → s'.delivered d = s.delivered d →
      RxEffect s s' choice d (.hwTxEnqueue e len a) [.hwTxTestRx e len]
  | dequeue {budget npackets a pkt} : (s.priv d).rxQueue = some a → s.heap.lookup a = some pkt →
      (s'.priv d).rxQueue = pkt.next → (s'.priv d).stats = (s.priv d).stats →
      s'.delivered d = s.delivered d →
      RxEffect s s' choice d (.pollDequeue d budget npackets) [.pollRx d budget npackets a]
  | count {budget npackets a pkt} : s.heap.lookup a = some pkt →
      (s'.priv d).rxQueue = (s.priv d).rxQueue →
      (s'.priv d).stats = (s.priv d).stats.received pkt choice.skbAlloc →
      s'.delivered d = s.delivered d ++ (if choice.skbAlloc then [pkt.frame] else []) →
      rxEvents s choice (.pollRx d budget npackets a) = [.taken d choice.skbAlloc pkt] →
      RxEffect s s' choice d (.pollRx d budget npackets a)
        [.release a, .pollTest d budget (npackets + 1)]
  | receive {a pkt} : (s.priv d).rxQueue = some a → s.heap.lookup a = some pkt →
      (s'.priv d).rxQueue = pkt.next →
      (s'.priv d).stats.rxCounts = ((s.priv d).stats.received pkt choice.skbAlloc).rxCounts →
      s'.delivered d = s.delivered d ++ (if choice.skbAlloc then [pkt.frame] else []) →
      rxEvents s choice (.regularInterrupt d) = [.taken d choice.skbAlloc pkt] →
      RxEffect s s' choice d (.regularInterrupt d) [.release a]

variable {cfg : Config} {s s' : Devices} {choice : Choice} {pc : Pc} {pcs rest : List Pc}
  {d e : DevId} {l : List Addr} {a : Addr} {pkt : Packet} {events log : List RxEvent}
  {t t' : System} {event : Event}

/-- The transmission-done branch does not touch the receive counters. -/
@[simp]
theorem Priv.rxCounts_statsDone (priv : Priv) (statusword : Status) :
    (priv.statsDone statusword).rxCounts = priv.stats.rxCounts := by
  unfold Priv.statsDone
  split <;> rfl

/-- The receive side in terms of the queue and the counters. -/
theorem Priv.rxSide_eq_iff {priv priv' : Priv} : priv.rxSide = priv'.rxSide ↔
      priv.rxQueue = priv'.rxQueue ∧ priv.stats.rxCounts = priv'.stats.rxCounts := by
  simp [Priv.rxSide, NetDeviceStats.rxCounts]

/-- The frames handed to the stack of a device. -/
theorem Devices.delivered_handOn (s : Devices) (d : DevId) (pkt : Packet) (skbAlloc : Bool) :
    (s.handOn d pkt skbAlloc).delivered d =
      s.delivered d ++ (if skbAlloc then [pkt.frame] else []) := by
  cases skbAlloc <;> simp [Devices.handOn, Devices.deliver, Packet.frame]

/-- The frames handed to the stack of another device. -/
theorem Devices.delivered_handOn_of_ne (s : Devices) (hne : d ≠ e) (pkt : Packet)
    (skbAlloc : Bool) : (s.handOn e pkt skbAlloc).delivered d = s.delivered d := by
  cases skbAlloc <;> simp [Devices.handOn, Devices.deliver, hne]

/-- The interrupt handler holds no packet when it is called. -/
theorem Config.holdsRx_interrupt (cfg : Config) (d e : DevId) :
    (cfg.interrupt e).holdsRx d = false := by
  rcases cfg.interrupt_cases e with ⟨-, h⟩ | ⟨-, h⟩ <;> rw [h] <;> rfl

/-- A packet is counted by the device that has taken it off its queue. -/
@[simp]
theorem RxEvent.dev_taken (d : DevId) (skbAlloc : Bool) (pkt : Packet) :
    (RxEvent.taken d skbAlloc pkt).dev = d := by
  cases skbAlloc <;> rfl

/-- A step without events that leaves the receive side alone and holds no packet is quiet. -/
theorem RxEffect.of_idle (hside : (s'.priv d).rxSide = (s.priv d).rxSide)
    (hdelivered : s'.delivered d = s.delivered d) (hevents : rxEvents s choice pc = [])
    (hpc : pc.holdsRx d = false) (hpcs : pcs.any (Pc.holdsRx d) = false) :
    RxEffect s s' choice d pc pcs := by
  refine .quiet hside hdelivered ?_ hpc ?_
  · rw [hevents]
    exact List.forall_mem_nil _
  · intro pc' hpc'
    exact Bool.eq_false_iff.mpr (List.any_eq_false.mp hpcs pc' hpc')

/-- Every transition has one of the five effects on the receive path of a device. -/
theorem Transition.rxEffect (htrans : Transition cfg s choice pc s' pcs) (d : DevId) :
    RxEffect s s' choice d pc pcs := by
  cases htrans with
  | tooShort | fill | testRxOn | testRxOff | readRx | readTx | pollAgain | pollDone | pollSpent
  | timeoutReadTx =>
    exact .of_idle rfl rfl rfl rfl rfl
  | releaseStopped | releaseNext =>
    refine .of_idle rfl rfl rfl rfl ?_
    split_ifs <;> rfl
  | noLockup => exact .of_idle rfl rfl rfl rfl (by simp [cfg.holdsRx_interrupt])
  | writeRx | timeoutWriteTx =>
    refine .of_idle (Devices.get_modify Priv.rxSide _ rfl d) rfl rfl rfl ?_
    rw [List.any_cons, cfg.holdsRx_interrupt]
    rfl
  | devStop =>
    refine .of_idle (Devices.get_modify Priv.rxSide _ rfl d) rfl rfl rfl ?_
    split_ifs <;> rfl
  | @enqueue e len a pkt _ hpkt =>
    rcases eq_or_ne d e.twin with rfl | hne
    · exact .enqueue rfl hpkt (AList.lookup_insert _) (by simp) (by simp) rfl
    · exact .quiet (by rw [Devices.priv_modify_of_ne _ hne]) rfl
        (by simpa [rxEvents, RxEvent.dev] using hne.symm) rfl (by simp [Pc.holdsRx])
  | @regularIdle e _ hempty =>
    refine .quiet (Devices.get_modify Priv.rxSide _ ?_ d) rfl ?_ rfl (by simp)
    · exact Priv.rxSide_eq_iff.mpr ⟨rfl, by simp⟩
    · cases hrx : (s.priv e).status.rxIntr <;> simp_all [rxEvents]
  | @napiInterrupt e =>
    refine .of_idle (Devices.get_modify Priv.rxSide _ ?_ d) rfl rfl rfl rfl
    exact Priv.rxSide_eq_iff.mpr ⟨rfl, by simp⟩
  | @regularReceive e a pkt _ hrx hqueue hpkt =>
    have hevents : rxEvents s choice (.regularInterrupt e) = [.taken e choice.skbAlloc pkt] := by
      simp [rxEvents, hrx, hqueue, hpkt]
    rcases eq_or_ne d e with rfl | hne
    · exact .receive hqueue hpkt (by simp) (by simp) (Devices.delivered_handOn _ _ _ _) hevents
    · refine .quiet (by rw [Devices.priv_modify_of_ne _ hne]; rfl)
        (Devices.delivered_handOn_of_ne _ hne _ _) ?_ rfl (by simp [Pc.holdsRx])
      simpa [hevents] using hne.symm
  | @pollDequeue e budget npackets a pkt _ hqueue hpkt =>
    rcases eq_or_ne d e with rfl | hne
    · exact .dequeue hqueue hpkt (by simp) (by simp) rfl
    · exact .quiet (by rw [Devices.priv_modify_of_ne _ hne]) rfl (by simp [rxEvents]) rfl
        (by simp [Pc.holdsRx, hne.symm])
  | @pollRx e budget npackets a pkt hpkt =>
    have hevents : rxEvents s choice (.pollRx e budget npackets a) =
        [.taken e choice.skbAlloc pkt] := by
      simp [rxEvents, hpkt]
    rcases eq_or_ne d e with rfl | hne
    · exact .count hpkt (by simp) (by simp) (Devices.delivered_handOn _ _ _ _) hevents
    · refine .quiet (by rw [Devices.priv_modify_of_ne _ hne]; rfl)
        (Devices.delivered_handOn_of_ne _ hne _ _) ?_ (by simp [Pc.holdsRx, hne.symm])
        (by simp [Pc.holdsRx])
      simpa [hevents] using hne.symm
  | timeoutRebuild _ hfree hsetup =>
    obtain ⟨heap, ppool, rfl, -⟩ := rebuild_eq hfree hsetup
    exact .of_idle (Devices.get_modify Priv.rxSide _ rfl d) rfl rfl rfl rfl
  | _ =>
    exact .of_idle (Devices.get_modify Priv.rxSide _ rfl d) rfl rfl rfl rfl

/-- The addresses on the receive queue of a device. -/
def Devices.RxQueue (s : Devices) (d : DevId) (l : List Addr) : Prop :=
  Chain Packet.next (fun a => s.heap.lookup a) (s.priv d).rxQueue l

/-- A transition touches no packet on a receive queue. -/
theorem Transition.lookup_rxQueue (htrans : Transition cfg s choice pc s' pcs)
    (howned : OwnedBy s (pc :: rest)) (hqueue : s.RxQueue d l) :
    ∀ a ∈ l, s'.heap.lookup a = s.heap.lookup a := by
  obtain ⟨ledger, howned⟩ := howned.owned
  obtain rfl : l = ledger (.rx d) := hqueue.unique (howned.chain (.rx d))
  exact fun a ha => htrans.lookup_eq howned (.inr ⟨d, ha⟩)

/-- A queue of packets that are not touched, whose head stays. -/
theorem Devices.RxQueue.keep (hqueue : s.RxQueue d l)
    (hlookup : ∀ a ∈ l, s'.heap.lookup a = s.heap.lookup a)
    (hhead : (s'.priv d).rxQueue = (s.priv d).rxQueue) : s'.RxQueue d l := by
  rw [Devices.RxQueue, hhead]
  exact hqueue.congr fun a ha => by rw [hlookup a ha]

/-- A packet is put in front of a queue. -/
theorem Devices.RxQueue.push (hqueue : s.RxQueue d l)
    (hlookup : ∀ a ∈ l, s'.heap.lookup a = s.heap.lookup a) (hpkt : s'.heap.lookup a = some pkt)
    (hnext : pkt.next = (s.priv d).rxQueue) (hhead : (s'.priv d).rxQueue = some a) :
    s'.RxQueue d (a :: l) := by
  rw [Devices.RxQueue, hhead]
  refine .cons hpkt ?_
  rw [hnext]
  exact hqueue.congr fun b hb => by rw [hlookup b hb]

/-- The first packet is taken off a queue. -/
theorem Devices.RxQueue.pop (hqueue : s.RxQueue d l)
    (hlookup : ∀ a ∈ l, s'.heap.lookup a = s.heap.lookup a) (hhead : (s.priv d).rxQueue = some a)
    (hpkt : s.heap.lookup a = some pkt) (hnext : (s'.priv d).rxQueue = pkt.next) :
    ∃ l', l = a :: l' ∧ s'.RxQueue d l' := by
  rw [Devices.RxQueue, hhead] at hqueue
  obtain ⟨pkt', l', hpkt', rfl, hrest⟩ := hqueue.exists_cons
  cases hpkt.symm.trans hpkt'
  refine ⟨l', rfl, ?_⟩
  rw [Devices.RxQueue, hnext]
  exact hrest.congr fun b hb => by rw [hlookup b (List.mem_cons_of_mem _ hb)]

/-- The packets a device has counted as received. -/
def countedBy (d : DevId) (log : List RxEvent) : List Packet := log.filterMap (RxEvent.countedOn d)

/-- The number of packets that a device has counted, as received or as dropped. -/
def settledBy (d : DevId) (log : List RxEvent) : ℕ :=
  (countedBy d log).length + log.countP (RxEvent.droppedOn d)

/-- Packets are counted one event after the other. -/
theorem settledBy_append (d : DevId) (log events : List RxEvent) :
    settledBy d (log ++ events) = settledBy d log + settledBy d events := by
  simp only [settledBy, countedBy, List.filterMap_append, List.length_append, List.countP_append]
  omega

/-- A packet that was taken off the queue is counted once and enqueues nothing. -/
theorem settledBy_taken (d : DevId) (pkt : Packet) (skbAlloc : Bool) :
    settledBy d [.taken d skbAlloc pkt] = 1 ∧
      [RxEvent.taken d skbAlloc pkt].countP (RxEvent.enqueuedOn d) = 0 := by
  cases skbAlloc <;>
    simp [settledBy, countedBy, RxEvent.taken]

/-- The events of another device count nothing. -/
theorem counts_eq_zero (hevents : ∀ event ∈ events, event.dev ≠ d) :
    countedBy d events = [] ∧ events.countP (RxEvent.droppedOn d) = 0 ∧
      events.countP (RxEvent.enqueuedOn d) = 0 := by
  refine ⟨List.filterMap_eq_nil_iff.mpr ?_, List.countP_eq_zero.mpr ?_, List.countP_eq_zero.mpr ?_⟩
  all_goals
    intro event hevent
    have hne := hevents event hevent
    cases event <;>
      simp_all [RxEvent.dev]

/-- A step accounts for the packets it enqueues on a device. -/
theorem RxEffect.arrivals (h : RxEffect s s' choice d pc pcs) (hqueue : s.RxQueue d l)
    (hlookup : ∀ a ∈ l, s'.heap.lookup a = s.heap.lookup a) : ∃ l', s'.RxQueue d l' ∧
      settledBy d (rxEvents s choice pc) + l'.length + pcs.countP (Pc.holdsRx d) =
        l.length + [pc].countP (Pc.holdsRx d) +
          (rxEvents s choice pc).countP (RxEvent.enqueuedOn d) := by
  cases h with
  | quiet hside _ hevents hpc hpcs =>
    obtain ⟨hcounted, hdropped, hnone⟩ := counts_eq_zero hevents
    have hheld : pcs.countP (Pc.holdsRx d) = 0 :=
      List.countP_eq_zero.mpr fun pc' hpc' => by simp [hpcs pc' hpc']
    refine ⟨l, hqueue.keep hlookup (Priv.rxSide_eq_iff.mp hside).1, ?_⟩
    simp [settledBy, hcounted, hdropped, hnone, hheld, hpc]
  | @enqueue e len a pkt htwin hpkt hpkt' hhead hstats =>
    refine ⟨a :: l, hqueue.push hlookup hpkt' rfl hhead, ?_⟩
    simp [settledBy, countedBy, rxEvents, htwin, Pc.holdsRx]
  | @dequeue budget npackets a pkt hhead hpkt hnext hstats =>
    obtain ⟨l', rfl, hqueue'⟩ := hqueue.pop hlookup hhead hpkt hnext
    refine ⟨l', hqueue', ?_⟩
    simp [settledBy, countedBy, rxEvents, Pc.holdsRx]
  | @count budget npackets a pkt hpkt hhead hstats _ hevents =>
    obtain ⟨hsettled, hnone⟩ := settledBy_taken d pkt choice.skbAlloc
    refine ⟨l, hqueue.keep hlookup hhead, ?_⟩
    rw [hevents, hsettled, hnone]
    simp [Pc.holdsRx]
    omega
  | @receive a pkt hhead hpkt hnext hcounts _ hevents =>
    obtain ⟨l', rfl, hqueue'⟩ := hqueue.pop hlookup hhead hpkt hnext
    obtain ⟨hsettled, hnone⟩ := settledBy_taken d pkt choice.skbAlloc
    refine ⟨l', hqueue', ?_⟩
    rw [hevents, hsettled, hnone]
    simp [Pc.holdsRx]
    omega

/-- The counters of the receive path, in the arithmetic of `unsigned long`, and the frames
handed to the stack agree with the packets that were counted. -/
structure RxCounted (s : Devices) (d : DevId) (log : List RxEvent) : Prop where
  packets : (s.priv d).stats.rxPackets = .ofNat (countedBy d log).length
  dropped : (s.priv d).stats.rxDropped = .ofNat (log.countP (RxEvent.droppedOn d))
  bytes : (s.priv d).stats.rxBytes = .ofNat ((countedBy d log).map Packet.datalen).sum
  frames : s.delivered d = (countedBy d log).map Packet.frame

/-- A packet that is received is counted. -/
theorem RxCounted.receive {skbAlloc : Bool} (h : RxCounted s d log)
    (hcounts : (s'.priv d).stats.rxCounts = ((s.priv d).stats.received pkt skbAlloc).rxCounts)
    (hframes : s'.delivered d = s.delivered d ++ (if skbAlloc then [pkt.frame] else [])) :
    RxCounted s' d (log ++ [.taken d skbAlloc pkt]) := by
  simp only [NetDeviceStats.rxCounts, Prod.mk.injEq] at hcounts
  obtain ⟨hpackets, hbytes, hdropped⟩ := hcounts
  cases skbAlloc with
  | false =>
    have hlog : countedBy d (log ++ [.taken d false pkt]) = countedBy d log :=
      List.filterMap_append.trans (List.append_nil _)
    refine ⟨?_, ?_, ?_, ?_⟩
    · simpa [hpackets, hlog] using h.packets
    · simp [hdropped, RxEvent.taken, h.dropped, UInt64.ofNat_add]
    · simpa [hbytes, hlog] using h.bytes
    · simpa [hframes, hlog] using h.frames
  | true =>
    refine ⟨?_, ?_, ?_, ?_⟩
    · simp [hpackets, NetDeviceStats.countRx, countedBy, RxEvent.taken, h.packets, UInt64.ofNat_add]
    · simpa [hdropped, NetDeviceStats.countRx, RxEvent.taken]
        using h.dropped
    · simp [hbytes, NetDeviceStats.countRx, countedBy, RxEvent.taken, h.bytes, UInt64.ofNat_add]
    · simp [hframes, countedBy, RxEvent.taken, h.frames]

/-- A step that counts nothing on a device. -/
theorem RxCounted.of_eq (h : RxCounted s d log)
    (hcounts : (s'.priv d).stats.rxCounts = (s.priv d).stats.rxCounts)
    (hframes : s'.delivered d = s.delivered d) (hcounted : countedBy d events = [])
    (hdropped : events.countP (RxEvent.droppedOn d) = 0) : RxCounted s' d (log ++ events) := by
  have hlog : countedBy d (log ++ events) = countedBy d log := by
    simpa [countedBy] using hcounted
  simp only [NetDeviceStats.rxCounts, Prod.mk.injEq] at hcounts
  refine ⟨?_, ?_, ?_, ?_⟩
  · rw [hlog, hcounts.1, h.packets]
  · rw [List.countP_append, hdropped, Nat.add_zero, hcounts.2.2, h.dropped]
  · rw [hlog, hcounts.2.1, h.bytes]
  · rw [hlog, hframes, h.frames]

/-- A step counts what it is observed to count. -/
theorem RxEffect.counted (h : RxEffect s s' choice d pc pcs) (hcounted : RxCounted s d log) :
    RxCounted s' d (log ++ rxEvents s choice pc) := by
  cases h with
  | quiet hside hframes hevents =>
    obtain ⟨hnone, hdropped, -⟩ := counts_eq_zero hevents
    exact hcounted.of_eq (Priv.rxSide_eq_iff.mp hside).2 hframes hnone hdropped
  | enqueue _ _ _ _ hstats hframes => exact hcounted.of_eq (by rw [hstats]) hframes rfl rfl
  | dequeue _ _ _ hstats hframes => exact hcounted.of_eq (by rw [hstats]) hframes rfl rfl
  | count _ _ hstats hframes hevents =>
    rw [hevents]
    exact hcounted.receive (by rw [hstats]) hframes
  | receive _ _ _ hcounts hframes hevents =>
    rw [hevents]
    exact hcounted.receive hcounts hframes

/-- Every packet that arrived at a device is in one place, and what it counted is right. -/
structure RxAccounted (s : Devices) (pcs : List Pc) (log : List RxEvent) : Prop where
  arrivals : ∀ d, ∃ l, s.RxQueue d l ∧
    settledBy d log + l.length + pcs.countP (Pc.holdsRx d) = log.countP (RxEvent.enqueuedOn d)
  counted : ∀ d, RxCounted s d log

/-- The order of the program counters does not matter. -/
theorem RxAccounted.perm (h : RxAccounted s pcs log) (hperm : pcs.Perm rest) :
    RxAccounted s rest log := by
  refine ⟨fun d => ?_, h.counted⟩
  simpa only [hperm.countP_eq] using h.arrivals d

/-- A transition keeps the accounts. -/
theorem RxAccounted.transition (h : RxAccounted s (pc :: rest) log)
    (howned : OwnedBy s (pc :: rest)) (htrans : Transition cfg s choice pc s' pcs) :
    RxAccounted s' (pcs ++ rest) (log ++ rxEvents s choice pc) := by
  refine ⟨fun d => ?_, fun d => (htrans.rxEffect d).counted (h.counted d)⟩
  obtain ⟨l, hqueue, hsum⟩ := h.arrivals d
  obtain ⟨l', hqueue', hsum'⟩ :=
    (htrans.rxEffect d).arrivals hqueue (htrans.lookup_rxQueue howned hqueue)
  refine ⟨l', hqueue', ?_⟩
  simp only [settledBy_append, List.countP_append, List.countP_cons, List.countP_nil]
    at hsum hsum' ⊢
  omega

/-- Every event keeps the accounts. -/
theorem RxAccounted.next (h : RxAccounted t.devices t.pcs log) (howned : t.OwnedOnce)
    (hnext : t.next cfg event = some t') :
    RxAccounted t'.devices t'.pcs (log ++ observeRx t event) := by
  cases System.move_of_next hnext with
  | @call op hdevices hpcs =>
    have hentry : ∀ d, op.entry.holdsRx d = false := fun d => by cases op <;> rfl
    rw [hdevices, observeRx, List.append_nil]
    refine RxAccounted.perm ⟨fun d => ?_, h.counted⟩ hpcs.symm
    simpa [hentry d] using h.arrivals d
  | @run i choice pc stack rest pcs hget hbefore htrans hafter =>
    have hevents : observeRx t (.run i choice) = rxEvents t.devices choice pc := by
      simp [observeRx, hget]
    rw [hevents]
    have howned' := (System.ownedOnce_iff.mp howned).perm hbefore
    exact ((h.perm hbefore).transition howned' htrans).perm hafter.symm

/-- The installed handler neither sends nor polls. -/
theorem Config.interrupt_idle (cfg : Config) (d e : DevId) :
    (cfg.interrupt e).beforeEnqueue d = false ∧ (cfg.interrupt e).polling d = false := by
  rcases cfg.interrupt_cases e with ⟨-, h⟩ | ⟨-, h⟩ <;> rw [h] <;> exact ⟨rfl, rfl⟩

/-- A transition starts neither a transmission nor a poll. -/
theorem Transition.countP_le (htrans : Transition cfg s choice pc s' pcs) (d : DevId) :
    pcs.countP (Pc.beforeEnqueue d) ≤ [pc].countP (Pc.beforeEnqueue d) ∧
      pcs.countP (Pc.polling d) ≤ [pc].countP (Pc.polling d) := by
  have hinterrupt := cfg.interrupt_idle d
  cases htrans with
  | writeRx | timeoutWriteTx | noLockup =>
    simp only [List.countP_cons, hinterrupt]
    simp [Pc.beforeEnqueue, Pc.polling]
  | releaseStopped | releaseNext | devStop =>
    split_ifs <;> simp [Pc.beforeEnqueue, Pc.polling]
  | _ => simp [List.countP_cons, Pc.beforeEnqueue, Pc.polling]

/-- The kernel calls `dummeth_poll` of a device only after the last poll of it has ended. -/
def OnePoll (t : System) : Event → Prop
  | .call (.poll d _) => ∀ pc ∈ t.pcs, pc.polling d = false
  | _ => True

/-- Every event keeps the polls of a device apart. -/
theorem OnePoll.next (hpoll : OnePoll t event) (h : t.pcs.countP (Pc.polling d) ≤ 1)
    (hnext : t.next cfg event = some t') : t'.pcs.countP (Pc.polling d) ≤ 1 := by
  cases System.move_of_next hnext with
  | @call op hdevices hpcs =>
    rw [hpcs.countP_eq, List.countP_cons]
    by_cases hentry : op.entry.polling d = true
    · cases op with
      | poll e budget =>
        obtain rfl : e = d := of_decide_eq_true hentry
        have hzero : t.pcs.countP (Pc.polling e) = 0 :=
          List.countP_eq_zero.mpr fun pc hpc => by simp [hpoll pc hpc]
        simp [hzero, hentry]
      | _ => cases hentry
    · simpa [hentry] using h
  | @run i choice pc stack rest pcs hget hbefore htrans hafter =>
    have hle := (htrans.countP_le d).2
    rw [hbefore.countP_eq, ← List.singleton_append, List.countP_append] at h
    rw [hafter.countP_eq, List.countP_append]
    omega

/-- A check for polls that are called in turn. -/
def onePoll (t : System) : Event → Bool
  | .call (.poll d _) => t.pcs.all fun pc => !pc.polling d
  | _ => true

end Hack.Dummeth
