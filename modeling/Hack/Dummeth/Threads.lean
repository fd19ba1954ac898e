import Hack.Dummeth.Driver
import Hack.Machine

/-!
# Concurrent operations of the dummeth driver

Any number of driver operations may be in progress at once. Each is a stack of
program counters, and a step runs the top one: a whole section under a device's
lock, a single read or write of a field outside of it, or work on a packet that
only this operation holds. A section cannot start on a device whose lock was left
held. Calls push the counters of the callee. The answers of the allocators come
with the label of a step, as does what is found through a pointer to a packet
that was freed meanwhile.
-/

namespace Hack.Dummeth

/-- Where an operation is, with the local variables it still needs. -/
inductive Pc
  /-- `dummeth_xmit` is about to store the buffer. -/
  | xmitStore (d : DevId) (skb : SkbId) (frame : List UInt8)
  /-- `dummeth_hw_tx` is about to get a packet from the pool. -/
  | hwTx (d : DevId) (buf : List UInt8)
  /-- It is about to copy the frame into its packet. -/
  | hwTxFill (d : DevId) (buf : List UInt8) (a : Addr)
  /-- It is about to enqueue its packet on the twin device. -/
  | hwTxEnqueue (d : DevId) (len : ℕ) (a : Addr)
  /-- It is about to test `rx_int_enabled` of the twin device. -/
  | hwTxTestRx (d : DevId) (len : ℕ)
  /-- It is about to read the status of the twin device. -/
  | hwTxReadRx (d : DevId) (len : ℕ)
  /-- It is about to write the status back with the receive bit. -/
  | hwTxWriteRx (d : DevId) (len : ℕ) (old : Status)
  /-- It is about to store the length of the frame. -/
  | hwTxLen (d : DevId) (len : ℕ)
  /-- It is about to read its own status. -/
  | hwTxReadTx (d : DevId)
  /-- It is about to write the status back with the transmit bit. -/
  | hwTxWriteTx (d : DevId) (old : Status)
  /-- It is about to test for a simulated lockup. -/
  | hwTxLockup (d : DevId)
  /-- `dummeth_regular_interrupt` is about to take the lock. -/
  | regularInterrupt (d : DevId)
  /-- `dummeth_napi_interrupt` is about to take the lock. -/
  | napiInterrupt (d : DevId)
  /-- `dummeth_release_buffer` is about to take the lock. -/
  | release (a : Addr)
  /-- It has unlocked and is about to test whether the queue is stopped. -/
  | releaseStopped (a : Addr)
  /-- It is about to test whether the pool was empty. -/
  | releaseNext (a : Addr)
  /-- It is about to wake the queue. -/
  | releaseWake (a : Addr)
  /-- `dummeth_poll` is about to test its loop condition. -/
  | pollTest (d : DevId) (budget : ℤ) (npackets : ℕ)
  /-- It is about to dequeue a packet. -/
  | pollDequeue (d : DevId) (budget : ℤ) (npackets : ℕ)
  /-- It is about to hand its packet on. -/
  | pollRx (d : DevId) (budget : ℤ) (npackets : ℕ) (a : Addr)
  /-- It is about to complete. -/
  | pollComplete (d : DevId)
  /-- `dummeth_tx_timeout` is about to read the status. -/
  | timeoutReadTx (d : DevId)
  /-- It is about to write the status back with the transmit bit. -/
  | timeoutWriteTx (d : DevId) (old : Status)
  /-- It is about to count the error. -/
  | timeoutErrors (d : DevId)
  /-- It is about to free the pool and to set it up again. -/
  | timeoutRebuild (d : DevId)
  /-- It is about to wake the queue. -/
  | timeoutWake (d : DevId)
  /-- `dummeth_open` is about to run. -/
  | devOpen (d : DevId)
  /-- `dummeth_stop` is about to stop the queue. -/
  | devStop (d : DevId)
  /-- It is waiting in `napi_disable`. -/
  | devDisable (d : DevId)
deriving DecidableEq

/-- What the environment decides in a step. -/
structure Choice where
  /-- Whether `dev_alloc_skb` succeeds. -/
  skbAlloc : Bool := true
  /-- The answers of successive `kmalloc` calls. -/
  kmalloc : ℕ → Option Addr := fun _ => none
  /-- What a test through a freed packet yields. -/
  staleTest : Bool := false
  /-- The device found through a freed packet. -/
  staleDev : DevId := .dev0

/-- The function pointer `dummeth_interrupt`. -/
def Config.interrupt (cfg : Config) (d : DevId) : Pc :=
  if cfg.useNapi then .napiInterrupt d else .regularInterrupt d

/-- A section under a device's lock, which has to be free. -/
def Devices.locking {α : Type} (s : Devices) (d : DevId) (section_ : Option α) : Option α :=
  if (s.priv d).locked then none else section_

variable {s : Devices} {cfg : Config}

/-- A section under a lock that was free. -/
theorem Devices.locking_eq_some {α : Type} {d : DevId} {body : Option α} {r : α}
    (h : s.locking d body = some r) : (s.priv d).locked = false ∧ body = some r := by
  unfold Devices.locking at h
  split_ifs at h with hlocked
  exact ⟨by simpa using hlocked, h⟩

/-- The device a packet points to, or what is found there when it was freed. -/
def Devices.packetDev (s : Devices) (a : Addr) (choice : Choice) : DevId :=
  ((s.heap.lookup a).map Packet.dev).getD choice.staleDev

/-- One step of the top program counter: the devices after it, and the counters
that take its place. -/
def step (cfg : Config) (s : Devices) (pc : Pc) (choice : Choice) : Option (Devices × List Pc) :=
  match pc with
  | .xmitStore d skb frame =>
    some (s.modify d fun priv => { priv with skb := some skb }, [.hwTx d (padFrame frame)])
  | .hwTx d buf =>
    if buf.length < 34 then some (s, [])
    else s.locking d <| (getTxBuffer s d).map fun
      | (s, none) => (s, [])
      | (s, some a) => (s, [.hwTxFill d (rewriteFrame cfg buf) a])
  | .hwTxFill d buf a =>
    (s.writePacket a fun pkt => { pkt with datalen := buf.length, data := buf }).map fun s =>
      (s, [.hwTxEnqueue d buf.length a])
  | .hwTxEnqueue d len a =>
    s.locking d.twin <| (enqueueBuf s d.twin a).map fun s => (s, [.hwTxTestRx d len])
  | .hwTxTestRx d len =>
    some (s, if (s.priv d.twin).rxIntEnabled then [.hwTxReadRx d len] else [.hwTxLen d len])
  | .hwTxReadRx d len => some (s, [.hwTxWriteRx d len (s.priv d.twin).status])
  | .hwTxWriteRx d len old =>
    some (s.modify d.twin fun priv => { priv with status := { old with rxIntr := true } },
      [cfg.interrupt d.twin, .hwTxLen d len])
  | .hwTxLen d len =>
    some (s.modify d fun priv => { priv with txPacketlen := len }, [.hwTxReadTx d])
  | .hwTxReadTx d => some (s, [.hwTxWriteTx d (s.priv d).status])
  | .hwTxWriteTx d old =>
    some (s.modify d fun priv => { priv with status := { old with txIntr := true } },
      [.hwTxLockup d])
  | .hwTxLockup d =>
    if lockupDue cfg (s.priv d) then
      some (s.modify d fun priv => { priv with queueStopped := true }, [])
    else some (s, [cfg.interrupt d])
  | .regularInterrupt d =>
    s.locking d <| (regularInterrupt s d choice.skbAlloc).map fun r =>
      (r.1, r.2.toList.map .release)
  | .napiInterrupt d => s.locking d <| some (napiInterrupt s d, [])
  | .release a =>
    (s.heap.lookup a).bind fun pkt =>
      s.locking pkt.dev <| (releaseBuffer s a).map fun s => (s, [.releaseStopped a])
  | .releaseStopped a =>
    let stopped := match s.heap.lookup a with
      | some pkt => (s.priv pkt.dev).queueStopped
      | none => choice.staleTest
    some (s, if stopped then [.releaseNext a] else [])
  | .releaseNext a =>
    let wasEmpty := match s.heap.lookup a with
      | some pkt => pkt.next.isNone
      | none => choice.staleTest
    some (s, if wasEmpty then [.releaseWake a] else [])
  | .releaseWake a =>
    some (s.modify (s.packetDev a choice) fun priv => { priv with queueStopped := false }, [])
  | .pollTest d budget npackets =>
    some (s,
      if (npackets : ℤ) < budget then
        if (s.priv d).rxQueue.isSome then [.pollDequeue d budget npackets] else [.pollComplete d]
      else [])
  | .pollDequeue d budget npackets =>
    -- An empty queue gives a null pointer, and the next access faults.
    s.locking d <| (dequeueBuf s d).bind fun r =>
      r.2.map fun a => (r.1, [.pollRx d budget npackets a])
  | .pollRx d budget npackets a =>
    (rx s d a choice.skbAlloc).map fun s => (s, [.release a, .pollTest d budget (npackets + 1)])
  | .pollComplete d => s.locking d <| some (pollComplete s d, [])
  | .timeoutReadTx d => some (s, [.timeoutWriteTx d (s.priv d).status])
  | .timeoutWriteTx d old =>
    some (s.modify d fun priv => { priv with status := { old with txIntr := true } },
      [cfg.interrupt d, .timeoutErrors d])
  | .timeoutErrors d =>
    some (s.modify d fun priv =>
      { priv with stats := { priv.stats with txErrors := priv.stats.txErrors + 1 } },
      [.timeoutRebuild d])
  | .timeoutRebuild d =>
    s.locking d <| (teardownPool s d).bind fun s =>
      (setupPool cfg s d choice.kmalloc).map fun s => (s, [.timeoutWake d])
  | .timeoutWake d => some (s.modify d fun priv => { priv with queueStopped := false }, [])
  | .devOpen d => some (devOpen cfg s d, [])
  | .devStop d =>
    some (s.modify d fun priv => { priv with queueStopped := true },
      if cfg.useNapi then [.devDisable d] else [])
  | .devDisable d =>
    -- `napi_disable` waits until no poll is scheduled.
    if (s.priv d).napi.sched then none
    else some (s.modify d fun priv => { priv with napi := { priv.napi with enabled := false } }, [])

/-- The operations of the driver. -/
inductive Op
  | xmit (d : DevId) (skb : SkbId) (frame : List UInt8)
  | hwTx (d : DevId) (buf : List UInt8)
  | poll (d : DevId) (budget : ℤ)
  | regularInterrupt (d : DevId)
  | napiInterrupt (d : DevId)
  | txTimeout (d : DevId)
  | devOpen (d : DevId)
  | devStop (d : DevId)

/-- Where an operation begins. -/
def Op.entry : Op → Pc
  | .xmit d skb frame => .xmitStore d skb frame
  | .hwTx d buf => .hwTx d buf
  | .poll d budget => .pollTest d budget 0
  | .regularInterrupt d => .regularInterrupt d
  | .napiInterrupt d => .napiInterrupt d
  | .txTimeout d => .timeoutReadTx d
  | .devOpen d => .devOpen d
  | .devStop d => .devStop d

/-- The devices with the operations in progress, each a stack of program counters
that is empty when the operation has returned. -/
structure System where
  devices : Devices
  threads : List (List Pc)

/-- An event: an operation is called, or the operation at an index makes a step. -/
inductive Event
  | call (op : Op)
  | run (i : ℕ) (choice : Choice)

/-- The system after an event. -/
def System.next (cfg : Config) (s : System) : Event → Option System
  | .call op => some { s with threads := s.threads ++ [[op.entry]] }
  | .run i choice =>
    match s.threads[i]? with
    | some (pc :: stack) =>
      (step cfg s.devices pc choice).map fun r => ⟨r.1, s.threads.set i (r.2 ++ stack)⟩
    | _ => none

/-- All program counters of the operations in progress. -/
def System.pcs (t : System) : List Pc := t.threads.flatMap id

/-- No operation is in progress. -/
def System.Idle (t : System) : Prop := ∀ stack ∈ t.threads, stack = []

instance (t : System) : Decidable t.Idle :=
  inferInstanceAs (Decidable (∀ stack ∈ t.threads, stack = []))

/-- The driver as a machine, started without operations in progress. -/
def driverMachine (cfg : Config) (start : Devices → Prop) : Machine System Event where
  start s := start s.devices ∧ s.threads = []
  next s event := s.next cfg event

/-- The devices after the module was loaded. -/
def Devices.Initialised (cfg : Config) (s : Devices) : Prop :=
  ∃ kmalloc, initModule cfg kmalloc = some s

/-- Loading the module leaves a device initialised, up to its pool. -/
theorem Devices.Initialised.priv_eq (h : s.Initialised cfg) (d : DevId) :
    s.priv d = { Priv.initial with ppool := (s.priv d).ppool } := by
  obtain ⟨kmalloc, hinit⟩ := h
  obtain ⟨t, hfirst, hsecond⟩ := Option.bind_eq_some_iff.mp hinit
  obtain ⟨r, -, rfl⟩ := Option.map_eq_some_iff.mp hfirst
  obtain ⟨r', -, rfl⟩ := Option.map_eq_some_iff.mp hsecond
  cases d <;> rfl

/-- Loading the module frees no buffer and delivers no frame. -/
theorem Devices.Initialised.logs (h : s.Initialised cfg) :
    s.freedSkbs = [] ∧ s.delivered = fun _ => [] := by
  obtain ⟨kmalloc, hinit⟩ := h
  obtain ⟨t, hfirst, hsecond⟩ := Option.bind_eq_some_iff.mp hinit
  obtain ⟨r, -, rfl⟩ := Option.map_eq_some_iff.mp hfirst
  obtain ⟨r', -, rfl⟩ := Option.map_eq_some_iff.mp hsecond
  exact ⟨rfl, rfl⟩

/-- The devices after the module was loaded and both devices were opened. -/
def Devices.Opened (cfg : Config) (s : Devices) : Prop :=
  ∃ t, t.Initialised cfg ∧ s = devOpen cfg (devOpen cfg t .dev0) .dev1

/-- Two packets for each device, in NAPI mode without simulated lockups. -/
def Config.sample : Config := ⟨true, 2, 0, fun _ _ => (0, 0)⟩

/-- Allocations of the sample: the packets 1 and 2, and the packets 3 and 4. -/
def sampleKmalloc (d : DevId) (i : ℕ) : Option Addr := some (i + if d = .dev0 then 1 else 3)

/-- The devices of the sample. -/
def Devices.sample : Devices :=
  (initModule .sample sampleKmalloc).getD ⟨∅, fun _ => .initial, [], fun _ => []⟩

/-- The sample is a loaded module. -/
theorem Devices.sample_initialised : Devices.sample.Initialised .sample := ⟨sampleKmalloc, rfl⟩

/-- The opened devices of the sample. -/
def Devices.sampleOpened : Devices := devOpen .sample (devOpen .sample .sample .dev0) .dev1

/-- The opened sample. -/
theorem Devices.sampleOpened_opened : Devices.sampleOpened.Opened .sample :=
  ⟨_, Devices.sample_initialised, rfl⟩

end Hack.Dummeth
