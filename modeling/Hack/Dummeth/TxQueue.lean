import Hack.Dummeth.OwnershipSteps

/-!
# Stopping and waking the transmit queue

The transmit queue of a device is stopped when its last free packet is taken, and
woken when a packet returns to the empty pool or the pool is rebuilt. The network
stack transmits only while the queue runs, so a running queue has to mean that
packets are left: with an empty pool a transmission returns with the lock held. Two
results say how far this is so. The queue runs only while packets are left, unless a
device is opened with an empty pool, or a packet is taken while another operation has
not finished waking the queue. Conversely, when operations run one at a time, a queue
is never stopped while packets are left.
-/

namespace Hack.Dummeth

/-- A transmission on a device that has yet to get its packet. -/
def Pc.wantsBuffer (d : DevId) : Pc → Bool
  | .xmitStore e _ _ => e = d
  | .hwTx e _ => e = d
  | _ => false

/-- The packet `dummeth_release_buffer` has returned to a pool, until it has woken the
queue or decided against it. -/
def Pc.released : Pc → Option Addr
  | .releaseStopped a => some a
  | .releaseNext a => some a
  | .releaseWake a => some a
  | _ => none

/-- An operation returned a packet to the pool of a device or rebuilt the pool, and may
be about to wake the transmit queue. -/
def Pc.MayWake (s : Devices) (d : DevId) (pc : Pc) : Prop :=
  (∃ a, pc.released = some a ∧ s.devOf a = some d) ∨ pc = .timeoutWake d

/-- The counters at which packets are taken out of the pool of a device. -/
def Pc.TakesFrom (d : DevId) : Pc → Prop
  | .hwTx e _ => e = d
  | .timeoutRebuild e => e = d
  | _ => False

/-- How the driver is called: the stack transmits on a device only while its queue
runs, and packets for a pool can be allocated. -/
def StackCalls (t : System) : Event → Prop
  | .call (.xmit d _ _) => (t.devices.priv d).queueStopped = false
  | .call (.hwTx _ _) => False
  | .call _ => True
  | .run i choice => ∀ d stack, t.threads[i]? = some (.timeoutRebuild d :: stack) →
      ∀ n, (choice.kmalloc n).isSome

/-- The condition on an event: a device is opened only while its pool is not empty,
transmissions on a device get their packets one after the other, and no packet is
taken and no pool rebuilt while another operation may be about to wake the queue. -/
def StartsWithBuffers (t : System) : Event → Prop
  | .call (.xmit d _ _) => ∀ pc ∈ t.pcs, pc.wantsBuffer d = false
  | .call _ => True
  | .run i _ => ∀ d stack,
      (t.threads[i]? = some (.devOpen d :: stack) → (t.devices.priv d).ppool.isSome) ∧
      (∀ pc, t.threads[i]? = some (pc :: stack) → pc.TakesFrom d →
        ∀ pc' ∈ t.pcs, ¬pc'.MayWake t.devices d)

/-- The devices after the module was loaded and all packets could be allocated. -/
def Devices.FullyInitialised (cfg : Config) (s : Devices) : Prop :=
  ∃ kmalloc, (∀ d n, (kmalloc d n).isSome) ∧ initModule cfg kmalloc = some s

/-- The invariant behind a running queue, over all program counters. -/
structure TxReady (s : Devices) (pcs : List Pc) : Prop where
  /-- No lock was left held. -/
  unlocked : ∀ d, (s.priv d).locked = false
  /-- A running queue has packets left. -/
  running : ∀ d, (s.priv d).queueStopped = false → (s.priv d).ppool.isSome
  /-- A released packet is still allocated. -/
  allocated : ∀ pc ∈ pcs, ∀ a, pc.released = some a → (s.devOf a).isSome
  /-- A transmission finds a packet, and so does a transmission after a wake-up. -/
  pool : ∀ pc ∈ pcs, ∀ d, pc.wantsBuffer d ∨ pc.MayWake s d → (s.priv d).ppool.isSome
  /-- Transmissions get their packets one after the other. -/
  one : ∀ d, pcs.countP (Pc.wantsBuffer d) ≤ 1

variable {cfg : Config} {s s' : Devices} {choice : Choice} {pc : Pc} {pcs rest : List Pc}
  {e d : DevId} {f : Priv → Priv} {a : Addr} {pkt : Packet} {t : System} {kmalloc : ℕ → Option Addr}
  {event : Event} {pc' : Pc}

/-- The part of the private data the transmit queue depends on. -/
def Priv.txSide (priv : Priv) : Option Addr × Bool × Bool :=
  (priv.ppool, priv.queueStopped, priv.locked)

/-- The transmit side of the devices is the same. -/
def SameTx (s s' : Devices) : Prop := ∀ d, (s'.priv d).txSide = (s.priv d).txSide

/-- Packets are only returned to the pools, packets keep their device, and a queue that
starts to run has packets left. -/
structure GrowsTx (s s' : Devices) : Prop where
  locked_eq : ∀ d, (s'.priv d).locked = (s.priv d).locked
  ppool_isSome : ∀ d, (s.priv d).ppool.isSome → (s'.priv d).ppool.isSome
  running : ∀ d, (s'.priv d).queueStopped = false →
    (s.priv d).queueStopped = false ∨ (s'.priv d).ppool.isSome
  devOf_eq : ∀ a, s'.devOf a = s.devOf a

/-- A step that only grows the pools keeps the invariant of the counters it leaves
alone. -/
theorem TxReady.of_grows (h : TxReady s (pc :: rest)) (hgrows : GrowsTx s s')
    (hallocated : ∀ pc' ∈ pcs, ∀ a, pc'.released = some a → (s'.devOf a).isSome)
    (hpool : ∀ pc' ∈ pcs, ∀ d, pc'.wantsBuffer d ∨ pc'.MayWake s' d → (s'.priv d).ppool.isSome)
    (hone : ∀ d, pcs.countP (Pc.wantsBuffer d) ≤ [pc].countP (Pc.wantsBuffer d)) :
    TxReady s' (pcs ++ rest) := by
  refine ⟨fun d => (hgrows.locked_eq d).trans (h.unlocked d), fun d hrunning => ?_,
    fun pc' hpc' a ha => ?_, fun pc' hpc' d hneeds => ?_, fun d => ?_⟩
  · exact (hgrows.running d hrunning).elim (fun h' => hgrows.ppool_isSome d (h.running d h')) id
  · rcases List.mem_append.mp hpc' with hpc' | hpc'
    · exact hallocated pc' hpc' a ha
    · rw [hgrows.devOf_eq]
      exact h.allocated pc' (List.mem_cons_of_mem _ hpc') a ha
  · rcases List.mem_append.mp hpc' with hpc' | hpc'
    · exact hpool pc' hpc' d hneeds
    · refine hgrows.ppool_isSome d (h.pool pc' (List.mem_cons_of_mem _ hpc') d ?_)
      simpa only [Pc.MayWake, hgrows.devOf_eq] using hneeds
  · have hone' := h.one d
    have hpcs := hone d
    rw [← List.singleton_append, List.countP_append] at hone'
    rw [List.countP_append]
    omega

/-- A counter that wants no packet and wakes no queue. -/
def Pc.Neutral : Pc → Prop
  | .xmitStore _ _ _ => False
  | .hwTx _ _ => False
  | .releaseStopped _ => False
  | .releaseNext _ => False
  | .releaseWake _ => False
  | .timeoutWake _ => False
  | _ => True

/-- An interrupt handler wants no packet and wakes no queue when it is called. -/
theorem Config.interrupt_neutral (cfg : Config) (d : DevId) : (cfg.interrupt d).Neutral := by
  rcases cfg.interrupt_cases d with ⟨-, h⟩ | ⟨-, h⟩ <;> rw [h] <;> trivial

/-- Neutral counters need nothing. -/
theorem Pc.Neutral.needs_nothing (h : pc.Neutral) :
    pc.released = none ∧ (∀ d, pc.wantsBuffer d = false) ∧ ∀ d, ¬pc.MayWake s d := by
  cases pc <;> simp_all [Pc.Neutral, Pc.released, Pc.wantsBuffer, Pc.MayWake]

/-- A step to neutral counters that only grows the pools. -/
theorem TxReady.of_neutral (h : TxReady s (pc :: rest)) (hgrows : GrowsTx s s')
    (hneutral : ∀ pc' ∈ pcs, pc'.Neutral) : TxReady s' (pcs ++ rest) := by
  refine h.of_grows hgrows (fun pc' hpc' a ha => ?_) (fun pc' hpc' d hneeds => ?_) fun d => ?_
  · obtain ⟨hreleased, -, -⟩ := (hneutral pc' hpc').needs_nothing (s := s')
    simp [hreleased] at ha
  · obtain ⟨-, hwants, hwake⟩ := (hneutral pc' hpc').needs_nothing (s := s')
    rcases hneeds with hneeds | hneeds
    · simp [hwants] at hneeds
    · exact absurd hneeds (hwake d)
  · have hzero : pcs.countP (Pc.wantsBuffer d) = 0 := by
      refine List.countP_eq_zero.mpr fun pc' hpc' => ?_
      simp [((hneutral pc' hpc').needs_nothing (s := s')).2.1]
    omega

/-- A change of private data that does not concern the transmit queue. -/
theorem GrowsTx.of_same (hsame : SameTx s s') (hdev : ∀ a, s'.devOf a = s.devOf a) :
    GrowsTx s s' := by
  have hfields : ∀ d, (s'.priv d).ppool = (s.priv d).ppool ∧
      (s'.priv d).queueStopped = (s.priv d).queueStopped ∧
      (s'.priv d).locked = (s.priv d).locked := fun d => by
    simpa [Priv.txSide] using hsame d
  refine ⟨fun d => (hfields d).2.2, fun d h => ?_, fun d h => ?_, hdev⟩
  · rwa [(hfields d).1]
  · exact .inl ((hfields d).2.1.symm.trans h)

/-- A change of the queue's state that starts it only while packets are left. -/
theorem GrowsTx.of_queue (hpool : (f (s.priv e)).ppool = (s.priv e).ppool)
    (hlocked : (f (s.priv e)).locked = (s.priv e).locked)
    (hqueue : (f (s.priv e)).queueStopped = false → (s.priv e).ppool.isSome) :
    GrowsTx s (s.modify e f) := by
  have hpool' := s.get_modify Priv.ppool hpool
  refine ⟨s.get_modify Priv.locked hlocked, fun d h => ?_, fun d h => ?_, fun a => rfl⟩
  · rwa [hpool' d]
  · rcases eq_or_ne d e with rfl | hne
    · rw [hpool' d]
      exact .inr (hqueue (by simpa using h))
    · exact .inl (by rwa [s.priv_modify_of_ne hne] at h)

/-- Taking a packet stops the queue when it was the last one. -/
theorem TxReady.getTxBuffer {buf buf' : List UInt8} (h : TxReady s (.hwTx d buf :: rest))
    (hquiet : ∀ pc ∈ rest, ¬pc.MayWake s d) : TxReady (s.modify d fun priv => { priv with
      ppool := pkt.next, queueStopped := priv.queueStopped || pkt.next.isNone })
      ([.hwTxFill d buf' a] ++ rest) := by
  have hother : ∀ e, e ≠ d → (s.modify d fun priv => { priv with
      ppool := pkt.next, queueStopped := priv.queueStopped || pkt.next.isNone }).priv e =
      s.priv e := fun e he => s.priv_modify_of_ne he _
  -- No other transmission wants a packet of this device.
  have halone : ∀ pc ∈ rest, pc.wantsBuffer d = false := by
    have hone := h.one d
    rw [List.countP_cons_of_pos (by simp [Pc.wantsBuffer])] at hone
    intro pc hpc
    simpa using List.countP_eq_zero.mp (by omega : rest.countP (Pc.wantsBuffer d) = 0) pc hpc
  refine ⟨fun e => ?_, fun e hrunning => ?_, fun pc hpc b hb => ?_, fun pc hpc e hneeds => ?_,
    fun e => ?_⟩
  · exact (s.get_modify Priv.locked rfl e).trans (h.unlocked e)
  · rcases eq_or_ne e d with rfl | he
    · cases hnext : pkt.next <;> simp_all
    · rw [hother e he] at hrunning ⊢
      exact h.running e hrunning
  · rcases List.mem_cons.mp hpc with rfl | hpc
    · cases hb
    · exact h.allocated pc (List.mem_cons_of_mem _ hpc) b hb
  · rcases List.mem_cons.mp hpc with rfl | hmem
    · simp [Pc.wantsBuffer, Pc.MayWake, Pc.released] at hneeds
    · have he : e ≠ d := by
        rintro rfl
        rcases hneeds with hneeds | hneeds
        · simp [halone pc hmem] at hneeds
        · exact hquiet pc hmem hneeds
      rw [hother e he]
      exact h.pool pc (List.mem_cons_of_mem _ hmem) e hneeds
  · have hone := h.one e
    rw [List.countP_cons] at hone
    rw [List.singleton_append, List.countP_cons_of_neg (by simp [Pc.wantsBuffer])]
    omega

/-- Rebuilding a pool leaves packets of the other device with their device. -/
theorem OwnedBy.devOf_rebuild {t : Devices} (h : OwnedBy s pcs) (hfree : teardownPool s d = some t)
    (hsetup : setupPool cfg t d kmalloc = some s') (ha : s.devOf a = some e) (hne : e ≠ d) :
    s'.devOf a = some e := by
  obtain ⟨⟨ledger, howned⟩, -⟩ := h
  have hpool : a ∉ ledger (.pool d) := fun hmem => by
    have howner := howned.owner _ a hmem
    rw [ha, Option.some_inj] at howner
    exact hne howner
  rw [Devices.devOf, howned.lookup_rebuild hfree hsetup (by simp [ha]) hpool]
  exact ha

/-- Rebuilding a pool leaves packets in it. -/
theorem TxReady.rebuild {t : Devices} (h : TxReady s (.timeoutRebuild d :: rest))
    (howned : OwnedBy s (.timeoutRebuild d :: rest)) (hfree : teardownPool s d = some t)
    (hsetup : setupPool cfg t d kmalloc = some s') (hsize : 1 ≤ cfg.poolSize)
    (halloc : ∀ n, (kmalloc n).isSome) (hquiet : ∀ pc ∈ rest, ¬pc.MayWake s d) :
    TxReady s' ([.timeoutWake d] ++ rest) := by
  obtain ⟨heap, ppool, hrebuilt, hsome⟩ := rebuild_eq hfree hsetup
  have hpriv : s'.priv = Function.update s.priv d { s.priv d with ppool } := by rw [hrebuilt]; rfl
  have hpool : (s'.priv d).ppool.isSome := by
    rw [hpriv, Function.update_self]
    exact hsome halloc hsize
  have hother : ∀ e, e ≠ d → s'.priv e = s.priv e := fun e he => by
    rw [hpriv, Function.update_of_ne he]
  -- Released packets belong to the other device, so they stay allocated.
  have hreleased : ∀ pc ∈ rest, ∀ a, pc.released = some a →
      (s'.devOf a).isSome ∧ ∀ e, s'.devOf a = some e → s.devOf a = some e := by
    intro pc hpc a ha
    obtain ⟨e, he⟩ := Option.isSome_iff_exists.mp
      (h.allocated pc (List.mem_cons_of_mem _ hpc) a ha)
    have hne : e ≠ d := fun heq => hquiet pc hpc (.inl ⟨a, ha, heq ▸ he⟩)
    have hkept := howned.devOf_rebuild hfree hsetup he hne
    exact ⟨Option.isSome_of_eq_some hkept, fun e' he' => he.trans (hkept.symm.trans he')⟩
  refine ⟨fun e => ?_, fun e hrunning => ?_, fun pc hpc a ha => ?_, fun pc hpc e hneeds => ?_,
    fun e => ?_⟩
  · rcases eq_or_ne e d with rfl | he
    · simpa [hpriv] using h.unlocked e
    · rw [hother e he]
      exact h.unlocked e
  · rcases eq_or_ne e d with rfl | he
    · exact hpool
    · rw [hother e he] at hrunning ⊢
      exact h.running e hrunning
  · rcases List.mem_cons.mp hpc with rfl | hmem
    · cases ha
    · exact (hreleased pc hmem a ha).1
  · rcases eq_or_ne e d with rfl | he
    · exact hpool
    · rw [hother e he]
      rcases List.mem_cons.mp hpc with rfl | hmem
      · simp [Pc.wantsBuffer, Pc.MayWake, Pc.released, he.symm] at hneeds
      · refine h.pool pc (List.mem_cons_of_mem _ hmem) e (hneeds.imp_right ?_)
        exact Or.imp_left fun ⟨a, ha, hdev⟩ => ⟨a, ha, (hreleased pc hmem a ha).2 e hdev⟩
  · have hone := h.one e
    rw [List.countP_cons] at hone
    rw [List.singleton_append, List.countP_cons_of_neg (by simp [Pc.wantsBuffer])]
    omega

/-- Returning a packet to a pool. -/
theorem GrowsTx.release (hf : f = fun priv => { priv with ppool := some a })
    (hdev : ∀ b, s'.devOf b = s.devOf b)
    (hs' : s' = { s with
      heap := s.heap.insert a { pkt with next := (s.priv pkt.dev).ppool } }.modify pkt.dev f) :
    GrowsTx s s' ∧ (s'.priv pkt.dev).ppool.isSome := by
  subst hf hs'
  refine ⟨⟨Devices.get_modify Priv.locked _ rfl, fun d hd => ?_, fun d hrunning => .inl ?_, hdev⟩,
    by simp⟩
  · rcases eq_or_ne d pkt.dev with rfl | hne
    · simp
    · rwa [Devices.priv_modify_of_ne _ hne]
  · rwa [Devices.get_modify Priv.queueStopped _ rfl] at hrunning

/-- Every transition that meets the condition keeps the invariant. -/
theorem TxReady.transition (h : TxReady s (pc :: rest)) (howned : OwnedBy s (pc :: rest))
    (htrans : Transition cfg s choice pc s' pcs) (hsize : 1 ≤ cfg.poolSize)
    (halloc : ∀ d, pc = .timeoutRebuild d → ∀ n, (choice.kmalloc n).isSome)
    (hopen : ∀ d, pc = .devOpen d → (s.priv d).ppool.isSome)
    (hquiet : ∀ d, pc.TakesFrom d → ∀ pc' ∈ rest, ¬pc'.MayWake s d) :
    TxReady s' (pcs ++ rest) := by
  have hdev := htrans.devOf_eq
  have hself := h.pool pc List.mem_cons_self
  have hrefl : GrowsTx s s := .of_same (fun _ => rfl) fun _ => rfl
  cases htrans with
  | tooShort | testRxOn | testRxOff | readRx | readTx | pollAgain | pollDone | pollSpent
  | timeoutReadTx =>
    exact h.of_neutral hrefl (List.forall_iff_forall_mem.mp trivial)
  | fill =>
    exact h.of_neutral (.of_same (fun _ => rfl) (hdev (by simp)))
      (List.forall_iff_forall_mem.mp trivial)
  | enqueue | storeLen | writeTx | regularIdle | regularReceive | napiInterrupt | pollDequeue
  | pollComplete | timeoutErrors | devDisable =>
    exact h.of_neutral (.of_same (Devices.get_modify Priv.txSide _ rfl) (hdev (by simp)))
      (List.forall_iff_forall_mem.mp trivial)
  | pollRx =>
    exact h.of_neutral (.of_same (Devices.get_modify Priv.txSide _ rfl) (hdev (by simp)))
      (List.forall_iff_forall_mem.mp ⟨trivial, trivial⟩)
  | writeRx | timeoutWriteTx =>
    exact h.of_neutral (.of_same (Devices.get_modify Priv.txSide _ rfl) (hdev (by simp)))
      (List.forall_iff_forall_mem.mp ⟨cfg.interrupt_neutral _, trivial⟩)
  | noLockup => exact h.of_neutral hrefl (by simpa using cfg.interrupt_neutral _)
  | lockup => exact h.of_neutral (.of_queue rfl rfl (by simp)) (by simp)
  | devStop =>
    refine h.of_neutral (.of_queue rfl rfl (by simp)) ?_
    split_ifs <;> simp [Pc.Neutral]
  | devOpen => exact h.of_neutral (.of_queue rfl rfl fun _ => hopen _ rfl) (by simp)
  | timeoutWake =>
    exact h.of_neutral (.of_queue rfl rfl fun _ => hself _ (.inr (.inr rfl))) (by simp)
  | @releaseWake a =>
    refine h.of_neutral (.of_queue rfl rfl fun _ => hself _ (.inr (.inl ⟨a, rfl, ?_⟩))) (by simp)
    obtain ⟨d, hd⟩ := Option.isSome_iff_exists.mp (h.allocated _ List.mem_cons_self a rfl)
    rw [hd, Devices.packetDev]
    exact congrArg some (by rw [← Devices.devOf, hd, Option.getD_some])
  | @xmitStore d skb frame =>
    refine h.of_grows (.of_same (Devices.get_modify Priv.txSide _ rfl) fun _ => rfl) ?_ ?_ ?_
    · simp [Pc.released]
    · simp only [List.mem_singleton, forall_eq]
      rintro e (he | he)
      · rw [Devices.get_modify Priv.ppool _ rfl]
        exact hself e (.inl he)
      · simp [Pc.MayWake, Pc.released] at he
    · simp [Pc.wantsBuffer]
  | @outOfPool d buf _ _ hnone => simpa [hnone] using hself d (.inl (by simp [Pc.wantsBuffer]))
  | getTxBuffer => exact h.getTxBuffer (hquiet _ rfl)
  | @release a pkt hpkt _ =>
    have hdev' := hdev (by simp)
    obtain ⟨hgrows, hsome⟩ := GrowsTx.release rfl hdev' rfl
    have hdevOf : s.devOf a = some pkt.dev := by simp [Devices.devOf, hpkt]
    refine h.of_grows hgrows ?_ ?_ (by simp [Pc.wantsBuffer])
    · simp only [List.mem_singleton, forall_eq, Pc.released, Option.some_inj]
      rintro b rfl
      simp [hdev', hdevOf]
    · simp only [List.mem_singleton, forall_eq]
      rintro e (he | he)
      · cases he
      · simp only [Pc.MayWake, Pc.released, Option.some_inj, exists_eq_left', hdev', hdevOf,
          reduceCtorEq, or_false] at he
        exact he ▸ hsome
  | @releaseStopped a | @releaseNext a =>
    refine h.of_grows hrefl ?_ ?_ ?_
    · have ha := h.allocated _ List.mem_cons_self a rfl
      split_ifs <;> simp [Pc.released, ha]
    · split_ifs
      · simpa [Pc.wantsBuffer, Pc.MayWake, Pc.released] using hself
      · simp
    · split_ifs <;> simp [Pc.wantsBuffer]
  | timeoutRebuild _ hfree hsetup =>
    exact h.rebuild howned hfree hsetup hsize (halloc _ rfl) (hquiet _ rfl)

/-- The order of the program counters does not matter. -/
theorem TxReady.perm (h : TxReady s pcs) (hperm : pcs.Perm rest) : TxReady s rest :=
  ⟨h.unlocked, h.running, fun pc hpc => h.allocated pc (hperm.mem_iff.mpr hpc),
    fun pc hpc => h.pool pc (hperm.mem_iff.mpr hpc),
    fun d => hperm.countP_eq (Pc.wantsBuffer d) ▸ h.one d⟩

/-- A call of the stack keeps the invariant. -/
theorem TxReady.call {op : Op} (h : TxReady t.devices t.pcs) (hcalls : StackCalls t (.call op))
    (hcond : StartsWithBuffers t (.call op)) : TxReady t.devices (op.entry :: t.pcs) := by
  have hreleased : op.entry.released = none := by cases op <;> rfl
  have hwake : ∀ d, ¬op.entry.MayWake t.devices d := by
    cases op <;> simp [Op.entry, Pc.MayWake, Pc.released]
  -- Only a transmission wants a packet, and it is called while the queue runs.
  have hwants : ∀ d, op.entry.wantsBuffer d = true →
      (t.devices.priv d).queueStopped = false ∧ ∀ pc ∈ t.pcs, pc.wantsBuffer d = false := by
    intro d hd
    cases op with
    | xmit e skb frame =>
      have he : e = d := by simpa [Op.entry, Pc.wantsBuffer] using hd
      subst he
      exact ⟨hcalls, hcond⟩
    | hwTx e buf => exact hcalls.elim
    | _ => simp [Op.entry, Pc.wantsBuffer] at hd
  refine ⟨h.unlocked, h.running, ?_, ?_, fun d => ?_⟩
  · refine List.forall_mem_cons.mpr ⟨fun a ha => ?_, h.allocated⟩
    rw [hreleased] at ha
    cases ha
  · refine List.forall_mem_cons.mpr ⟨fun d hd => ?_, h.pool⟩
    exact hd.elim (fun hd => h.running d (hwants d hd).1) fun hd => absurd hd (hwake d)
  · cases hd : op.entry.wantsBuffer d with
    | false =>
      rw [List.countP_cons_of_neg (by simp [hd])]
      exact h.one d
    | true =>
      rw [List.countP_cons_of_pos hd, List.countP_eq_zero.mpr]
      intro pc hpc
      simp [(hwants d hd).2 pc hpc]

/-- Every event that meets the conditions keeps the invariant. -/
theorem TxReady.next {t' : System} (h : TxReady t.devices t.pcs) (howned : t.OwnedOnce)
    (hsize : 1 ≤ cfg.poolSize) (hcalls : StackCalls t event) (hcond : StartsWithBuffers t event)
    (hnext : t.next cfg event = some t') : TxReady t'.devices t'.pcs := by
  cases System.move_of_next hnext with
  | call hdevices hpcs =>
    rw [hdevices]
    exact (h.call hcalls hcond).perm hpcs.symm
  | @run i choice pc stack rest pcs hget hbefore htrans hafter =>
    have howned' := (System.ownedOnce_iff.mp howned).perm hbefore
    refine ((h.perm hbefore).transition howned' htrans hsize ?_ ?_ ?_).perm hafter.symm
    · rintro d rfl
      exact hcalls d stack hget
    · rintro d rfl
      exact (hcond d stack).1 hget
    · intro d htakes pc' hpc'
      exact (hcond d stack).2 pc hget htakes pc' (hbefore.mem_iff.mpr (List.mem_cons_of_mem _ hpc'))

/-- A module that was loaded with all its packets was loaded. -/
theorem Devices.FullyInitialised.initialised (h : s.FullyInitialised cfg) : s.Initialised cfg :=
  let ⟨kmalloc, _, hinit⟩ := h
  ⟨kmalloc, hinit⟩

/-- The pools of a module that was loaded with all its packets are not empty. -/
theorem Devices.FullyInitialised.txReady (h : s.FullyInitialised cfg) (hsize : 1 ≤ cfg.poolSize) :
    TxReady s [] := by
  have hpriv := h.initialised.priv_eq
  obtain ⟨kmalloc, halloc, hinit⟩ := h
  obtain ⟨t, hfirst, hsecond⟩ := Option.bind_eq_some_iff.mp hinit
  obtain ⟨heap, ppool, rfl, hsome⟩ := setupPool_eq hfirst
  obtain ⟨heap', ppool', rfl, hsome'⟩ := setupPool_eq hsecond
  have hpool : ∀ d, (((Devices.withPool ⟨∅, fun _ => .initial, [], fun _ => []⟩ .dev0 heap
      ppool).withPool .dev1 heap' ppool').priv d).ppool.isSome := by
    intro d
    cases d with
    | dev0 => exact hsome (halloc _) hsize
    | dev1 => exact hsome' (halloc _) hsize
  refine ⟨fun d => ?_, fun d _ => hpool d, by simp, by simp, by simp⟩
  rw [hpriv d]
  rfl

/-- **A running queue has packets left.** In every run in which devices are opened only
while their pool is not empty, and packets are not taken while another operation may be
about to wake the queue, a transmission that gets its packet finds one, and no
operation leaves a lock held. -/
theorem getTxBuffer_never_out_of_pool (hsize : 1 ≤ cfg.poolSize) {t : System}
    (hreach : (driverMachine cfg (Devices.FullyInitialised cfg)).ReachableUnder
      (fun t event => StackCalls t event ∧ StartsWithBuffers t event) t) :
    (∀ d buf, Pc.hwTx d buf ∈ t.pcs → (t.devices.priv d).ppool ≠ none) ∧
      ∀ d, (t.devices.priv d).locked = false := by
  have hinv : t.OwnedOnce ∧ TxReady t.devices t.pcs := by
    refine hreach.invariant (fun t => t.OwnedOnce ∧ TxReady t.devices t.pcs) ?_ ?_
    · rintro ⟨s, threads⟩ ⟨hstart, hthreads⟩
      cases hthreads
      exact ⟨⟨hstart.initialised.owned, by simp⟩, hstart.txReady hsize⟩
    · rintro t event t' ⟨howned, h⟩ ⟨hcalls, hcond⟩ hnext
      exact ⟨howned.next hnext, h.next howned hsize hcalls hcond hnext⟩
  refine ⟨fun d buf hpc => ?_, hinv.2.unlocked⟩
  exact Option.isSome_iff_ne_none.mp (hinv.2.pool _ hpc d (.inl (by simp [Pc.wantsBuffer])))

/-- The sample was loaded with all its packets. -/
theorem Devices.sample_fullyInitialised : Devices.sample.FullyInitialised .sample :=
  ⟨sampleKmalloc, fun _ _ => rfl, rfl⟩

/-- A check for transmissions of the stack that do not overlap with anything. -/
def transmitsAlone (t : System) : Event → Bool
  | .call (.xmit d _ _) => !(t.devices.priv d).queueStopped && t.pcs.isEmpty
  | .call _ => false
  | .run i _ => match t.threads[i]? with
    | some (.xmitStore _ _ _ :: _) => true
    | _ => false

/-- Such events meet the conditions. -/
theorem startsWithBuffers_of_transmitsAlone (h : transmitsAlone t event = true) :
    StackCalls t event ∧ StartsWithBuffers t event := by
  cases event with
  | call op =>
    cases op with
    | xmit d skb frame =>
      simp only [transmitsAlone, Bool.and_eq_true, Bool.not_eq_true', List.isEmpty_iff] at h
      exact ⟨h.1, by simp [StartsWithBuffers, h.2]⟩
    | _ => simp [transmitsAlone] at h
  | run i choice =>
    simp only [transmitsAlone] at h
    split at h
    · rename_i e skb frame stack hget
      simp [StackCalls, StartsWithBuffers, hget, Pc.TakesFrom]
    · cases h

/-- A transmission of the sample is about to get its packet, and finds one. -/
theorem getTxBuffer_finds_sample_packet :
    ∃ t, (driverMachine .sample (Devices.FullyInitialised .sample)).ReachableUnder
        (fun t event => StackCalls t event ∧ StartsWithBuffers t event) t ∧
      Pc.hwTx .dev0 (padFrame []) ∈ t.pcs ∧
      (t.devices.priv .dev0).ppool ≠ none ∧ ∀ d, (t.devices.priv d).locked = false := by
  refine Machine.exists_reachableUnder (s := ⟨.sample, []⟩)
    ⟨Devices.sample_fullyInitialised, rfl⟩ transmitsAlone
    (fun _ _ => startsWithBuffers_of_transmitsAlone) [.call (.xmit .dev0 7 []), .run 0 {}]
    (fun t => t.pcs = [.hwTx .dev0 (padFrame [])]) ⟨_, rfl, rfl⟩ fun t hreach hpcs => ?_
  have hmem : Pc.hwTx .dev0 (padFrame []) ∈ t.pcs := by simp [hpcs]
  have hbuffers := getTxBuffer_never_out_of_pool (by decide) hreach
  exact ⟨hmem, hbuffers.1 _ _ hmem, hbuffers.2⟩

/-- A check for calls of the stack that do not overlap and rebuild no pool. -/
def callsAlone (t : System) : Event → Bool
  | .call (.xmit d _ _) => !(t.devices.priv d).queueStopped && decide t.Idle
  | .call (.hwTx _ _) => false
  | .call _ => decide t.Idle
  | .run i _ => match t.threads[i]? with
    | some (.timeoutRebuild _ :: _) => false
    | _ => true

/-- Such events are calls of the stack, one at a time. -/
theorem stackCalls_of_callsAlone (h : callsAlone t event = true) :
    StackCalls t event ∧ event.Alone t := by
  cases event with
  | call op => cases op <;> simp_all [callsAlone, StackCalls, Event.Alone]
  | run i choice =>
    refine ⟨fun d stack hget => ?_, trivial⟩
    simp [callsAlone, hget] at h

/-- Device 0 is opened again after its two packets were sent to device 1, where they wait
to be polled, and then transmits. -/
def Event.reopened : List Event :=
  [Event.call (.devOpen .dev0), Event.run 0 {}, Event.call (.devOpen .dev1), Event.run 1 {}] ++
  Event.call (.xmit .dev0 7 []) :: List.replicate 13 (Event.run 2 {}) ++
  Event.call (.xmit .dev0 8 []) :: List.replicate 10 (Event.run 3 {}) ++
  [Event.call (.devStop .dev0), Event.run 4 {}, Event.run 4 {}, Event.call (.devOpen .dev0),
    Event.run 5 {}, Event.call (.xmit .dev0 9 []), Event.run 6 {}, Event.run 6 {}]

/-- Opening a device starts its queue although its pool is empty: the next transmission
leaves the lock held. -/
theorem reopened_device_left_locked : 1 ≤ Config.sample.poolSize ∧ Config.sample.lockup = 0 ∧
    ∃ t, (driverMachine .sample (Devices.FullyInitialised .sample)).ReachableUnder
        (fun t event => StackCalls t event ∧ event.Alone t) t ∧
      t.Idle ∧ (t.devices.priv .dev0).locked = true := by
  refine ⟨by decide, rfl, ?_⟩
  refine Machine.exists_reachableUnder (s := ⟨.sample, []⟩)
    ⟨Devices.sample_fullyInitialised, rfl⟩ callsAlone (fun _ _ => stackCalls_of_callsAlone)
    Event.reopened
    (fun t => t.threads = List.replicate 7 [] ∧ (t.devices.priv .dev0).locked = true)
    ⟨_, rfl, rfl, rfl⟩ fun t _ ⟨hthreads, hlocked⟩ => ⟨?_, hlocked⟩
  simp [System.Idle, hthreads]

/-- Calls other than of `dummeth_stop`. -/
def Event.KeepsOpen : Event → Prop
  | .call (.devStop _) => False
  | _ => True

/-- A counter that is going to wake the queue of a device. -/
@[simp] def Pc.Wakes (s : Devices) (d : DevId) : Pc → Prop
  | .releaseStopped a => ∃ pkt, s.heap.lookup a = some pkt ∧ pkt.dev = d ∧ pkt.next = none
  | .releaseNext a => ∃ pkt, s.heap.lookup a = some pkt ∧ pkt.dev = d ∧ pkt.next = none
  | .releaseWake a => s.devOf a = some d
  | .timeoutWake e => e = d
  | _ => False

/-- The queue of a device runs, or its pool is empty. -/
def Priv.Settled (priv : Priv) : Prop := priv.ppool.isSome → priv.queueStopped = false

/-- The invariant of operations that run one at a time, over the program counters of the
one in progress. -/
structure Woken (s : Devices) (pcs : List Pc) : Prop where
  /-- A stopped queue with packets left is going to be woken next. -/
  wakes : ∀ d, (s.priv d).Settled ∨ ∃ pc ∈ pcs.head?, pc.Wakes s d
  /-- No device is being stopped. -/
  keepsOpen : ∀ pc ∈ pcs, ∀ d, pc ≠ .devStop d

/-- Settled devices need no wake-up. -/
theorem Woken.of_settled (h : Woken s (pc :: rest)) (hsettled : ∀ d, (s'.priv d).Settled)
    (hopen : ∀ pc' ∈ pcs, ∀ d, pc' ≠ .devStop d) : Woken s' (pcs ++ rest) := by
  refine ⟨fun d => .inl (hsettled d), fun pc' hpc' => ?_⟩
  rcases List.mem_append.mp hpc' with hpc' | hpc'
  · exact hopen pc' hpc'
  · exact h.keepsOpen pc' (List.mem_cons_of_mem _ hpc')

/-- The devices are settled before the step of a counter that wakes no queue. -/
theorem Woken.settled (h : Woken s (pc :: rest)) (hpc : ∀ d, ¬pc.Wakes s d) (d : DevId) :
    (s.priv d).Settled := by
  refine (h.wakes d).resolve_right ?_
  rintro ⟨pc', hpc', hwakes⟩
  cases hpc'
  exact hpc d hwakes

/-- A step that writes neither the pools nor the state of the queues. -/
theorem Woken.of_same (h : Woken s (pc :: rest)) (hpc : ∀ d, ¬pc.Wakes s d)
    (hpriv : ∀ d, (s'.priv d).ppool = (s.priv d).ppool ∧
      (s'.priv d).queueStopped = (s.priv d).queueStopped)
    (hpcs : ∀ pc' ∈ pcs, ∀ d, pc' ≠ .devStop d) : Woken s' (pcs ++ rest) := by
  refine h.of_settled (fun d => ?_) hpcs
  have hsettled := h.settled hpc d
  rwa [Priv.Settled, ← (hpriv d).1, ← (hpriv d).2] at hsettled

/-- An interrupt stops no device. -/
theorem Config.interrupt_ne_devStop (cfg : Config) (d e : DevId) :
    cfg.interrupt d ≠ .devStop e := by
  rcases cfg.interrupt_cases d with ⟨-, h⟩ | ⟨-, h⟩ <;> simp [h]

/-- A step to a counter that wakes one queue, with the other queue settled. -/
theorem Woken.of_wakes (h : Woken s (pc :: rest)) (hsettled : ∀ d, d ≠ e → (s'.priv d).Settled)
    (hwakes : (s'.priv e).Settled ∨ pc'.Wakes s' e) (hopen : ∀ d, pc' ≠ .devStop d) :
    Woken s' ([pc'] ++ rest) := by
  refine ⟨fun d => ?_, List.forall_mem_cons.mpr ⟨hopen, fun pc'' hpc'' =>
    h.keepsOpen pc'' (List.mem_cons_of_mem _ hpc'')⟩⟩
  rcases eq_or_ne d e with rfl | hne
  · exact hwakes.imp_right fun hwakes => ⟨pc', rfl, hwakes⟩
  · exact .inl (hsettled d hne)

/-- Waking the queue of a device settles it. -/
theorem Priv.Settled.of_running {priv : Priv} (h : priv.queueStopped = false) : priv.Settled :=
  fun _ => h

/-- The queue of a device is woken by a counter that wakes no other. -/
theorem Woken.wake (h : Woken s (pc :: rest)) (hpc : ∀ d, pc.Wakes s d → d = e) :
    Woken (s.modify e fun priv => { priv with queueStopped := false }) ([] ++ rest) := by
  refine h.of_settled (fun d => ?_) (by simp)
  rcases eq_or_ne d e with rfl | hne
  · exact .of_running (by simp)
  · rw [s.priv_modify_of_ne hne]
    refine (h.wakes d).resolve_right ?_
    rintro ⟨pc', hpc', hwakes⟩
    cases hpc'
    exact hne (hpc d hwakes)

/-- A test that passes whenever a queue still has to be woken. -/
theorem Woken.test {test : Bool} (h : Woken s (pc :: rest))
    (htest : ∀ d, ¬(s.priv d).Settled → pc.Wakes s d → test = true ∧ pc'.Wakes s d)
    (hopen : ∀ d, pc' ≠ .devStop d) : Woken s ((if test then [pc'] else []) ++ rest) := by
  refine ⟨fun d => or_iff_not_imp_left.mpr fun hd => ?_, fun pc'' hpc'' => ?_⟩
  · obtain ⟨_, hpc, hwakes⟩ := (h.wakes d).resolve_left hd
    cases hpc
    obtain ⟨rfl, hwakes'⟩ := htest d hd hwakes
    exact ⟨pc', rfl, hwakes'⟩
  · rcases List.mem_append.mp hpc'' with hpc'' | hpc''
    · split_ifs at hpc''
      · exact List.mem_singleton.mp hpc'' ▸ hopen
      · cases hpc''
    · exact h.keepsOpen pc'' (List.mem_cons_of_mem _ hpc'')

/-- Every transition keeps the invariant, without simulated lockups. -/
theorem Woken.transition (h : Woken s (pc :: rest)) (hlockup : cfg.lockup = 0)
    (htrans : Transition cfg s choice pc s' pcs) : Woken s' (pcs ++ rest) := by
  have hopen := h.keepsOpen pc List.mem_cons_self
  cases htrans with
  | tooShort | fill | testRxOn | testRxOff | readRx | readTx | pollAgain | pollDone | pollSpent
  | timeoutReadTx =>
    exact h.of_same (by simp) (fun _ => ⟨rfl, rfl⟩) (by simp)
  | xmitStore | outOfPool | enqueue | storeLen | writeTx | regularIdle | regularReceive
  | napiInterrupt | pollDequeue | pollRx | pollComplete | timeoutErrors | devDisable =>
    exact h.of_same (by simp)
      (fun d => ⟨Devices.get_modify Priv.ppool _ rfl d,
        Devices.get_modify Priv.queueStopped _ rfl d⟩)
      (by simp)
  | writeRx | timeoutWriteTx =>
    exact h.of_same (by simp)
      (fun d => ⟨Devices.get_modify Priv.ppool _ rfl d,
        Devices.get_modify Priv.queueStopped _ rfl d⟩)
      (List.forall_mem_cons.mpr ⟨cfg.interrupt_ne_devStop _, by simp⟩)
  | noLockup =>
    exact h.of_same (by simp) (fun _ => ⟨rfl, rfl⟩)
      (by simpa using cfg.interrupt_ne_devStop _)
  | lockup hdue => simp [lockupDue, hlockup] at hdue
  | devStop => exact absurd rfl (hopen _)
  | @getTxBuffer d buf a pkt _ _ hpool _ =>
    have hsettled := h.settled (by simp)
    refine h.of_settled (fun e => ?_) (by simp)
    rcases eq_or_ne e d with rfl | hne
    · have hrunning := hsettled e (by simp [hpool])
      intro hsome
      simp only [Devices.priv_modify] at hsome ⊢
      simp [hrunning, hsome]
    · rw [s.priv_modify_of_ne hne]
      exact hsettled e
  | @release a pkt _ _ =>
    have hsettled := h.settled (by simp)
    refine h.of_wakes (e := pkt.dev) (fun d hne => ?_) ?_ (by simp)
    · rw [Devices.priv_modify_of_ne _ hne]
      exact hsettled d
    · -- Into an empty pool the packet is linked without a successor.
      cases hpool : (s.priv pkt.dev).ppool with
      | none => exact .inr ⟨{ pkt with next := none }, by simp [Devices.modify], rfl, rfl⟩
      | some b => exact .inl (.of_running (by simpa using hsettled _ (by simp [hpool])))
  | @releaseStopped a stopped hstopped =>
    refine h.test (fun d hd hwakes => ?_) (by simp)
    obtain ⟨pkt, hpkt, rfl, -⟩ := id hwakes
    refine ⟨(hstopped pkt hpkt).trans ?_, hwakes⟩
    by_contra hrunning
    exact hd (.of_running (by simpa using hrunning))
  | @releaseNext a wasEmpty hempty =>
    refine h.test (fun d hd hwakes => ?_) (by simp)
    obtain ⟨pkt, hpkt, hdev, hnext⟩ := hwakes
    exact ⟨by simp [hempty pkt hpkt, hnext], by simp [Devices.devOf, hpkt, hdev]⟩
  | @releaseWake a =>
    refine h.wake fun d hwakes => ?_
    have hdev : (s.heap.lookup a).map Packet.dev = some d := hwakes
    simp [Devices.packetDev, hdev]
  | @timeoutRebuild d t _ _ hfree hsetup =>
    have hsettled := h.settled (by simp)
    obtain ⟨heap, ppool, rfl, -⟩ := rebuild_eq hfree hsetup
    refine h.of_wakes (e := d) (fun e hne => ?_) (.inr rfl) (by simp)
    rw [Devices.withPool, Devices.priv_modify_of_ne _ hne]
    exact hsettled e
  | timeoutWake => exact h.wake fun d hd => hd.symm
  | @devOpen d =>
    have hsettled := h.settled (by simp)
    refine h.of_settled (fun e => ?_) (by simp)
    rcases eq_or_ne e d with rfl | hne
    · exact .of_running (by simp)
    · rw [s.priv_modify_of_ne hne]
      exact hsettled e

/-- **A queue is always woken again.** After both devices were opened and while none is
stopped, whenever operations run one at a time and none is in progress, the queue of a
device whose pool is not empty runs. -/
theorem queue_running_of_pool_ne_none (hlockup : cfg.lockup = 0) {t : System}
    (hreach : (driverMachine cfg (Devices.Opened cfg)).ReachableUnder
      (fun t event => event.Alone t ∧ event.KeepsOpen) t)
    (hidle : t.Idle) (d : DevId) (hpool : (t.devices.priv d).ppool ≠ none) :
    (t.devices.priv d).queueStopped = false := by
  have hinv : t.Solo ∧ Woken t.devices t.pcs := by
    refine hreach.invariant (fun t => t.Solo ∧ Woken t.devices t.pcs) ?_ ?_
    · rintro ⟨s, threads⟩ ⟨⟨s₀, -, rfl⟩, hthreads⟩
      cases hthreads
      refine ⟨by simp [System.Solo], fun d => .inl (.of_running ?_), by simp [System.pcs]⟩
      cases d <;> simp [devOpen, Devices.modify]
    · rintro t event t' ⟨hsolo, h⟩ ⟨halone, hopen⟩ hnext
      obtain ⟨hsolo', hmove⟩ := hsolo.next halone hnext
      refine ⟨hsolo', ?_⟩
      cases hmove with
      | @call op hpcs hdevices hpcs' =>
        rw [hpcs] at h
        rw [hdevices, hpcs']
        refine ⟨fun d => (h.wakes d).imp_right (by simp), ?_⟩
        cases op <;> first | exact hopen.elim | simp [Op.entry]
      | run hpcs htrans hpcs' =>
        rw [hpcs] at h
        rw [hpcs']
        exact h.transition hlockup htrans
  have hpcs : t.pcs = [] := List.flatMap_eq_nil_iff.mpr hidle
  refine (hinv.2.wakes d).elim (fun h => h (Option.isSome_iff_ne_none.mpr hpool)) ?_
  simp [hpcs]

/-- A check for operations that run one at a time and do not stop a device. -/
def worksAlone (t : System) : Event → Bool
  | .call (.devStop _) => false
  | .call _ => decide t.Idle
  | .run _ _ => true

/-- Such events meet the conditions. -/
theorem keepsOpen_of_worksAlone (h : worksAlone t event = true) :
    event.Alone t ∧ event.KeepsOpen := by
  cases event with
  | call op => cases op <;> simp_all [worksAlone, Event.Alone, Event.KeepsOpen]
  | run i choice => exact ⟨trivial, trivial⟩

/-- Device 0 sends its two packets, and device 1 polls both. -/
def Event.bothPolled : List Event :=
  Event.call (.xmit .dev0 7 []) :: List.replicate 13 (Event.run 0 {}) ++
  Event.call (.xmit .dev0 8 []) :: List.replicate 10 (Event.run 1 {}) ++
  Event.call (.poll .dev1 2) :: List.replicate 13 (Event.run 2 {})

/-- After the poll the queue of device 0, which had sent its last packet, runs again. -/
theorem queue_running_after_bothPolled :
    ∃ t, (driverMachine .sample (Devices.Opened .sample)).ReachableUnder
        (fun t event => event.Alone t ∧ event.KeepsOpen) t ∧
      t.Idle ∧ (t.devices.priv .dev0).ppool ≠ none ∧
      (t.devices.priv .dev0).queueStopped = false := by
  refine Machine.exists_reachableUnder (s := ⟨.sampleOpened, []⟩)
    ⟨Devices.sampleOpened_opened, rfl⟩ worksAlone (fun _ _ => keepsOpen_of_worksAlone)
    Event.bothPolled
    (fun t => t.threads = List.replicate 3 [] ∧ (t.devices.priv .dev0).ppool = some 2)
    ⟨_, rfl, rfl, rfl⟩ fun t hreach ⟨hthreads, hpool⟩ => ?_
  have hidle : t.Idle := by simp [System.Idle, hthreads]
  have hfilled : (t.devices.priv .dev0).ppool ≠ none := by simp [hpool]
  exact ⟨hidle, hfilled, queue_running_of_pool_ne_none rfl hreach hidle .dev0 hfilled⟩

end Hack.Dummeth
