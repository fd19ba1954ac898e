import Mathlib.Algebra.Group.Int.Defs
import Mathlib.Algebra.Group.Nat.Defs
import Mathlib.Data.List.AList

/-!
# The state and the critical sections of the dummeth driver

Two devices are each other's wire: a frame sent on one is put on the receive
queue of the other. Packets are allocated blocks linked into the pool of the
device that owns them or into a receive queue, so both lists are head pointers
here and the links are fields of the packets. Reading or writing a packet that
is not allocated is a fault, and a section that faults has no result. The
functions of this file are the sections that run under one device's lock, and the
computations between them.
-/

namespace Hack.Dummeth

/-- The two devices of `dummeth_devs`. -/
inductive DevId
  | dev0
  | dev1
deriving DecidableEq

/-- The device at the other end of the wire. -/
def DevId.twin : DevId → DevId
  | .dev0 => .dev1
  | .dev1 => .dev0

/-- The twin of the twin is the device itself. -/
@[simp]
theorem DevId.twin_twin (d : DevId) : d.twin.twin = d := by
  cases d <;> rfl

/-- A device is not its own twin. -/
theorem DevId.ne_twin (d : DevId) : d ≠ d.twin := by
  cases d <;> simp [DevId.twin]

/-- The address of an allocated packet. -/
abbrev Addr := ℕ

/-- The identity of an `sk_buff`. -/
abbrev SkbId := ℕ

/-- `struct dummeth_packet`. -/
structure Packet where
  /-- The next packet of the list this one is in. -/
  next : Option Addr
  /-- The device whose pool the packet belongs to. -/
  dev : DevId
  /-- The length of the frame. -/
  datalen : ℕ
  /-- The bytes of the frame. -/
  data : List UInt8

/-- The allocated packets. -/
abbrev Heap := AList fun _ : Addr => Packet

/-- The counters of `struct net_device_stats` the driver uses, of type `unsigned long`. -/
structure NetDeviceStats where
  rxPackets : UInt64
  rxBytes : UInt64
  rxDropped : UInt64
  txPackets : UInt64
  txBytes : UInt64
  txErrors : UInt64
deriving DecidableEq

/-- The bits of the status word. -/
structure Status where
  /-- `DUMMETH_RX_INTR`. -/
  rxIntr : Bool
  /-- `DUMMETH_TX_INTR`. -/
  txIntr : Bool
deriving DecidableEq

/-- The part of `struct napi_struct` the driver depends on. -/
structure Napi where
  /-- Between `napi_enable` and `napi_disable`. -/
  enabled : Bool
  /-- A poll is scheduled or running. -/
  sched : Bool
  /-- A schedule arrived while a poll was scheduled or running. -/
  missed : Bool
deriving DecidableEq

/-- `struct dummeth_priv` with the state of the device's transmit queue. -/
structure Priv where
  stats : NetDeviceStats
  status : Status
  /-- The head of the pool of free packets. -/
  ppool : Option Addr
  /-- The head of the queue of incoming packets. -/
  rxQueue : Option Addr
  rxIntEnabled : Bool
  txPacketlen : ℕ
  /-- The last `sk_buff` given to `dummeth_xmit`, until an interrupt clears it. -/
  skb : Option SkbId
  /-- The lock was left held by a function that returned. -/
  locked : Bool
  /-- The transmit queue is stopped. -/
  queueStopped : Bool
  napi : Napi
deriving DecidableEq

/-- Both devices, the allocated packets, and what left the driver: the buffers
passed to `dev_kfree_skb` and the frames handed to the network stack. -/
structure Devices where
  heap : Heap
  priv : DevId → Priv
  freedSkbs : List SkbId
  delivered : DevId → List (List UInt8)

/-- The module parameters, and the checksum function of the kernel: from the bytes
of a header and its length in words to the two bytes stored in it. -/
structure Config where
  useNapi : Bool
  poolSize : ℤ
  lockup : ℤ
  ipFastCsum : List UInt8 → ℕ → UInt8 × UInt8

/-- A change of the private data of one device. -/
def Devices.modify (s : Devices) (d : DevId) (f : Priv → Priv) : Devices :=
  { s with priv := Function.update s.priv d (f (s.priv d)) }

/-- The private data of a device after a change of its own. -/
@[simp]
theorem Devices.priv_modify (s : Devices) (d : DevId) (f : Priv → Priv) :
    (s.modify d f).priv d = f (s.priv d) := by
  simp [Devices.modify]

/-- The private data of a device after a change of another one. -/
theorem Devices.priv_modify_of_ne (s : Devices) {d e : DevId} (hne : d ≠ e) (f : Priv → Priv) :
    (s.modify e f).priv d = s.priv d := by
  simp [Devices.modify, hne]

/-- A write to an allocated packet. -/
def Devices.writePacket (s : Devices) (a : Addr) (f : Packet → Packet) : Option Devices :=
  (s.heap.lookup a).map fun pkt => { s with heap := s.heap.insert a (f pkt) }

/-- The devices with another content of the memory and another pool of one device. -/
def Devices.withPool (s : Devices) (d : DevId) (heap : Heap) (ppool : Option Addr) : Devices :=
  { s with heap }.modify d fun priv => { priv with ppool }

/-- The loop of `dummeth_setup_pool` for the remaining packets, with the answer of
each `kmalloc`. An allocation returns memory that is not allocated, or fails and
ends the loop; the frame of a new packet is not initialised and is never read. -/
def setupPoolFrom (d : DevId) (kmalloc : ℕ → Option Addr) :
    ℕ → ℕ → Heap → Option Addr → Option (Heap × Option Addr)
  | 0, _, heap, ppool => some (heap, ppool)
  | n + 1, i, heap, ppool =>
    match kmalloc i with
    | none => some (heap, ppool)
    | some a =>
      if a ∈ heap then none
      else setupPoolFrom d kmalloc n (i + 1) (heap.insert a ⟨ppool, d, 0, []⟩) (some a)

/-- `dummeth_setup_pool`. -/
def setupPool (cfg : Config) (s : Devices) (d : DevId) (kmalloc : ℕ → Option Addr) :
    Option Devices :=
  (setupPoolFrom d kmalloc cfg.poolSize.toNat 0 s.heap none).map fun r => s.withPool d r.1 r.2

/-- The loop of `dummeth_teardown_pool` from a packet on. Each round frees an
allocated packet, so their number bounds the rounds. -/
def teardownPoolFrom : ℕ → Heap → Option Addr → Option Heap
  | _, heap, none => some heap
  | 0, _, some _ => none
  | n + 1, heap, some a =>
    (heap.lookup a).bind fun pkt => teardownPoolFrom n (heap.erase a) pkt.next

/-- The private data after `dummeth_setup` cleared it and enabled receive interrupts. -/
def Priv.initial : Priv where
  stats := ⟨0, 0, 0, 0, 0, 0⟩
  status := ⟨false, false⟩
  ppool := none
  rxQueue := none
  rxIntEnabled := true
  txPacketlen := 0
  skb := none
  locked := false
  queueStopped := false
  napi := ⟨false, false, false⟩

/-- `dummeth_init_module`: both devices are set up, one after the other. -/
def initModule (cfg : Config) (kmalloc : DevId → ℕ → Option Addr) : Option Devices :=
  (setupPool cfg ⟨∅, fun _ => .initial, [], fun _ => []⟩ .dev0 (kmalloc .dev0)).bind fun s =>
    setupPool cfg s .dev1 (kmalloc .dev1)

/-- `dummeth_teardown_pool`. -/
def teardownPool (s : Devices) (d : DevId) : Option Devices :=
  (teardownPoolFrom s.heap.entries.length s.heap (s.priv d).ppool).map fun heap =>
    s.withPool d heap none

/-- `dummeth_get_tx_buffer`. With an empty pool it returns without unlocking. -/
def getTxBuffer (s : Devices) (d : DevId) : Option (Devices × Option Addr) :=
  match (s.priv d).ppool with
  | none => some (s.modify d fun priv => { priv with locked := true }, none)
  | some a =>
    (s.heap.lookup a).map fun pkt =>
      (s.modify d fun priv => { priv with
        ppool := pkt.next, queueStopped := priv.queueStopped || pkt.next.isNone }, some a)

/-- The part of `dummeth_release_buffer` under the lock of the packet's device. -/
def releaseBuffer (s : Devices) (a : Addr) : Option Devices :=
  (s.heap.lookup a).bind fun pkt =>
    (s.writePacket a fun pkt => { pkt with next := (s.priv pkt.dev).ppool }).map fun s =>
      s.modify pkt.dev fun priv => { priv with ppool := some a }

/-- `dummeth_enqueue_buf`. -/
def enqueueBuf (s : Devices) (d : DevId) (a : Addr) : Option Devices :=
  (s.writePacket a fun pkt => { pkt with next := (s.priv d).rxQueue }).map fun s =>
    s.modify d fun priv => { priv with rxQueue := some a }

/-- `dummeth_dequeue_buf`. -/
def dequeueBuf (s : Devices) (d : DevId) : Option (Devices × Option Addr) :=
  match (s.priv d).rxQueue with
  | none => some (s, none)
  | some a =>
    (s.heap.lookup a).map fun pkt =>
      (s.modify d fun priv => { priv with rxQueue := pkt.next }, some a)

/-- `dummeth_rx_ints`. -/
def rxInts (s : Devices) (d : DevId) (enable : Bool) : Devices :=
  s.modify d fun priv => { priv with rxIntEnabled := enable }

/-- `napi_schedule`: while polling is enabled a poll is scheduled, or the schedule is
remembered as missed when one is scheduled already. -/
def Napi.schedule (napi : Napi) : Napi :=
  if !napi.enabled then napi
  else if napi.sched then { napi with missed := true }
  else { napi with sched := true }

/-- `napi_complete_done`: the poll ends, and the answer is true, unless a schedule
was missed meanwhile. -/
def Napi.completeDone (napi : Napi) : Napi × Bool :=
  if napi.missed then ({ napi with missed := false }, false)
  else ({ napi with sched := false }, true)

/-- A frame is handed to the network stack. -/
def Devices.deliver (s : Devices) (d : DevId) (frame : List UInt8) : Devices :=
  { s with delivered := Function.update s.delivered d (s.delivered d ++ [frame]) }

/-- The counters after a received frame of some length. -/
def NetDeviceStats.countRx (stats : NetDeviceStats) (datalen : ℕ) : NetDeviceStats :=
  { stats with rxPackets := stats.rxPackets + 1, rxBytes := stats.rxBytes + .ofNat datalen }

/-- What `dummeth_rx` and the body of the loop of `dummeth_poll` do with a received
packet: its frame is handed to the network stack, or the packet is counted as
dropped when no buffer can be allocated for it. -/
def rx (s : Devices) (d : DevId) (a : Addr) (skbAlloc : Bool) : Option Devices :=
  (s.heap.lookup a).map fun pkt =>
    if skbAlloc then
      (s.deliver d (pkt.data.take pkt.datalen)).modify d fun priv =>
        { priv with stats := priv.stats.countRx pkt.datalen }
    else
      s.modify d fun priv =>
        { priv with stats := { priv.stats with rxDropped := priv.stats.rxDropped + 1 } }

/-- The counters after a transmission-done interrupt. -/
def Priv.countTx (priv : Priv) : NetDeviceStats :=
  { priv.stats with
    txPackets := priv.stats.txPackets + 1
    txBytes := priv.stats.txBytes + .ofNat priv.txPacketlen }

/-- The transmission-done branch of `dummeth_regular_interrupt`, which frees the
buffer but keeps the pointer to it. -/
def regularTxDone (s : Devices) (d : DevId) : Devices :=
  { s with freedSkbs := s.freedSkbs ++ (s.priv d).skb.toList }.modify d fun priv =>
    { priv with stats := priv.countTx }

/-- The transmission-done branch of `dummeth_napi_interrupt`. -/
def napiTxDone (s : Devices) (d : DevId) : Devices :=
  { s with freedSkbs := s.freedSkbs ++ (s.priv d).skb.toList }.modify d fun priv =>
    { priv with stats := priv.countTx, skb := none }

/-- An interrupt handler clears the status word it has read. -/
def clearStatus (s : Devices) (d : DevId) : Devices :=
  s.modify d fun priv => { priv with status := ⟨false, false⟩ }

/-- The receive branch of `dummeth_regular_interrupt`. -/
def regularReceive (s : Devices) (d : DevId) (skbAlloc : Bool) : Option (Devices × Option Addr) :=
  (dequeueBuf s d).bind fun
    | (s, none) => some (s, none)
    | (s, some a) => (rx s d a skbAlloc).map fun s => (s, some a)

/-- The part of `dummeth_regular_interrupt` under the lock, with the packet that is
to be released afterwards. -/
def regularInterrupt (s : Devices) (d : DevId) (skbAlloc : Bool) : Option (Devices × Option Addr) :=
  let statusword := (s.priv d).status
  (if statusword.rxIntr then regularReceive (clearStatus s d) d skbAlloc
    else some (clearStatus s d, none)).map fun r =>
    (if statusword.txIntr then regularTxDone r.1 d else r.1, r.2)

/-- The receive branch of `dummeth_napi_interrupt`. -/
def napiReceive (s : Devices) (d : DevId) : Devices :=
  (rxInts s d false).modify d fun priv => { priv with napi := priv.napi.schedule }

/-- `dummeth_napi_interrupt`. -/
def napiInterrupt (s : Devices) (d : DevId) : Devices :=
  let statusword := (s.priv d).status
  let received := if statusword.rxIntr then napiReceive (clearStatus s d) d else clearStatus s d
  if statusword.txIntr then napiTxDone received d else received

/-- The end of a poll in `napi_complete_done`, as far as its `napi` is concerned. -/
def napiComplete (s : Devices) (d : DevId) : Devices :=
  s.modify d fun priv => { priv with napi := priv.napi.completeDone.1 }

/-- The section at the end of `dummeth_poll`. -/
def pollComplete (s : Devices) (d : DevId) : Devices :=
  if (s.priv d).napi.completeDone.2 then rxInts (napiComplete s d) d true else napiComplete s d

/-- `dummeth_open`: `napi_enable` in NAPI mode, and the transmit queue is started. -/
def devOpen (cfg : Config) (s : Devices) (d : DevId) : Devices :=
  s.modify d fun priv => { priv with
    napi := if cfg.useNapi then ⟨true, false, false⟩ else priv.napi, queueStopped := false }

/-- The address bytes `dummeth_hw_tx` flips, and the header checksum it rebuilds. -/
def rewriteFrame (cfg : Config) (buf : List UInt8) : List UInt8 :=
  let buf := (buf.modify 28 (· ^^^ 1)).modify 32 (· ^^^ 1)
  let buf := (buf.set 24 0).set 25 0
  let check := cfg.ipFastCsum (buf.drop 14) ((buf.getD 14 0).toNat % 16)
  (buf.set 24 check.1).set 25 check.2

/-- The frame `dummeth_xmit` transmits: padded with zeros to `ETH_ZLEN`. -/
def padFrame (frame : List UInt8) : List UInt8 :=
  frame ++ List.replicate (60 - frame.length) 0

/-- The test for a simulated lockup, in the arithmetic of `unsigned long`. -/
def lockupDue (cfg : Config) (priv : Priv) : Bool :=
  cfg.lockup ≠ 0 && (priv.stats.txPackets + 1).toNat % (cfg.lockup % 2 ^ 64).toNat == 0

end Hack.Dummeth
