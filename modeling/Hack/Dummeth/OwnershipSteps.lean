import Hack.Dummeth.Ownership
import Hack.Dummeth.Transitions

/-!
# Every step keeps the ownership of packets

The packets in the hands of an operation follow from its program counters. A step
changes the ledger in one of few ways, and most steps do not touch the lists at
all. Since the packets held by other operations are part of the invariant, and a
step neither frees nor relabels them, the invariant of all operations together
follows from the step of one.
-/

namespace Hack.Dummeth

open LinkedList Function

/-- The packet an operation holds at a program counter, from taking it off a list
until it is linked into the next one. -/
def Pc.hands : Pc → List Addr
  | .hwTxFill _ _ a => [a]
  | .hwTxEnqueue _ _ a => [a]
  | .pollRx _ _ _ a => [a]
  | .release a => [a]
  | _ => []

/-- A transmitting operation holds a packet of its own device. -/
def Pc.HoldsOwn (s : Devices) : Pc → Prop
  | .hwTxFill d _ a => s.devOf a = some d
  | .hwTxEnqueue d _ a => s.devOf a = some d
  | _ => True

/-- A call of the interrupt handler adds no packet to the hands of an operation. -/
theorem Config.flatMap_interrupt (cfg : Config) (d : DevId) (pcs : List Pc) :
    (cfg.interrupt d :: pcs).flatMap Pc.hands = pcs.flatMap Pc.hands := by
  unfold Config.interrupt
  split_ifs <;> rfl

/-- The interrupt handler holds no packet of its own device when it is called. -/
theorem Config.holdsOwn_interrupt (cfg : Config) (d : DevId) (s : Devices) :
    (cfg.interrupt d).HoldsOwn s := by
  unfold Config.interrupt
  split_ifs <;> trivial

/-- What a step from one program counter to some others keeps, given the packets
held elsewhere. -/
structure KeepsOwned (s s' : Devices) (pcs : List Pc) (rest : List Addr) : Prop where
  /-- Some ledger describes the lists after the step. -/
  owned : ∃ ledger, Owned s' ledger (pcs.flatMap Pc.hands ++ rest)
  /-- Packets held elsewhere keep their device. -/
  devOf_eq : ∀ a ∈ rest, s'.devOf a = s.devOf a
  /-- The operation still holds its own packets. -/
  holdsOwn : ∀ pc ∈ pcs, pc.HoldsOwn s'

variable {s s' : Devices} {ledger : Ledger} {rest : List Addr} {pc : Pc} {pcs : List Pc}
  {f : Priv → Priv} {d : DevId} {a : Addr} {pkt : Packet} {t : System} {p : Place} {cfg : Config}
  {choice : Choice}

/-- A change of private data sets the two head pointers of its device. -/
theorem Devices.head_modify (s : Devices) (d : DevId) (f : Priv → Priv) :
    (s.modify d f).head = update
      (update s.head (.pool d) (f (s.priv d)).ppool) (.rx d) (f (s.priv d)).rxQueue := by
  funext p
  rcases p with e | e <;> rcases eq_or_ne e d with rfl | he
  · simp [Devices.head, Devices.modify]
  · simp [Devices.head, Devices.modify, he]
  · simp [Devices.head, Devices.modify]
  · simp [Devices.head, Devices.modify, he]

/-- A change of the pool pointer. -/
theorem Devices.head_modify_pool (s : Devices) (d : DevId)
    (hrx : (f (s.priv d)).rxQueue = (s.priv d).rxQueue) :
    (s.modify d f).head = update s.head (.pool d) (f (s.priv d)).ppool := by
  rw [s.head_modify, hrx, update_comm (by simp)]
  congr 1
  exact update_eq_self (Place.rx d) s.head

/-- A change of the receive queue pointer. -/
theorem Devices.head_modify_rx (s : Devices) (d : DevId)
    (hpool : (f (s.priv d)).ppool = (s.priv d).ppool) :
    (s.modify d f).head = update s.head (.rx d) (f (s.priv d)).rxQueue := by
  rw [s.head_modify, hpool]
  congr 1
  exact update_eq_self (Place.pool d) s.head

/-- A packet was taken off a list, and nothing else changed in memory. -/
def Popped (s s' : Devices) (p : Place) (a : Addr) : Prop :=
  ∃ pkt, s.head p = some a ∧ s.heap.lookup a = some pkt ∧ s'.heap = s.heap ∧
    s'.head = update s.head p pkt.next

/-- Taking the first packet off a pool. -/
theorem Popped.modify_pool (hpool : (s.priv d).ppool = some a) (hpkt : s.heap.lookup a = some pkt)
    (hnext : (f (s.priv d)).ppool = pkt.next) (hrx : (f (s.priv d)).rxQueue = (s.priv d).rxQueue) :
    Popped s (s.modify d f) (.pool d) a :=
  ⟨pkt, hpool, hpkt, rfl, hnext ▸ s.head_modify_pool d hrx⟩

/-- Taking the first packet off a receive queue, perhaps along with changes outside of
the memory and the private data. -/
theorem Popped.modify_rx {t : Devices} (hqueue : (s.priv d).rxQueue = some a)
    (hpkt : s.heap.lookup a = some pkt) (hheap : t.heap = s.heap) (hpriv : t.priv = s.priv)
    (hnext : (f (s.priv d)).rxQueue = pkt.next) (hpool : (f (s.priv d)).ppool = (s.priv d).ppool) :
    Popped s (t.modify d f) (.rx d) a := by
  have hhead : t.head = s.head := by
    funext p
    cases p <;> simp [Devices.head, hpriv]
  rw [← hpriv] at hnext hpool
  refine ⟨pkt, hqueue, hpkt, hheap, ?_⟩
  rw [t.head_modify_rx d hpool, hnext, hhead]

/-- Neither memory nor lists changed. -/
def SameLists (s s' : Devices) : Prop := s'.heap = s.heap ∧ s'.head = s.head

/-- Nothing changed. -/
theorem SameLists.refl (s : Devices) : SameLists s s := ⟨rfl, rfl⟩

/-- A change of private data outside of the lists. -/
theorem SameLists.modify (s : Devices) (d : DevId) (hpool : (f (s.priv d)).ppool = (s.priv d).ppool)
    (hrx : (f (s.priv d)).rxQueue = (s.priv d).rxQueue) : SameLists s (s.modify d f) := by
  have hpool' : update s.head (.pool d) (s.priv d).ppool = s.head :=
    update_eq_self (Place.pool d) s.head
  have hrx' : update s.head (.rx d) (s.priv d).rxQueue = s.head :=
    update_eq_self (Place.rx d) s.head
  exact ⟨rfl, by rw [s.head_modify, hpool, hrx, hpool', hrx']⟩

/-- A step that touches neither memory nor lists and hands its packets on. -/
theorem KeepsOwned.of_same (h : Owned s ledger (pc.hands ++ rest)) (hsame : SameLists s s')
    (hhands : pcs.flatMap Pc.hands = pc.hands) (hown : ∀ pc ∈ pcs, pc.HoldsOwn s') :
    KeepsOwned s s' pcs rest := by
  refine ⟨⟨ledger, ?_⟩, fun a _ => ?_, hown⟩
  · rw [hhands]
    exact h.congr hsame.1 hsame.2
  · rw [Devices.devOf, hsame.1]
    rfl

/-- A step that takes a packet off a list into the hands of the operation. -/
theorem KeepsOwned.of_popped (h : Owned s ledger rest) (hpopped : Popped s s' p a)
    (hhands : pcs.flatMap Pc.hands = [a])
    (hown : s'.devOf a = some p.owner → ∀ pc ∈ pcs, pc.HoldsOwn s') :
    KeepsOwned s s' pcs rest := by
  obtain ⟨pkt, hhead, hpkt, hheap, hhead'⟩ := hpopped
  obtain ⟨hdev, ledger', howned⟩ := h.pop hhead hpkt hheap hhead'
  have hsame : ∀ b, s'.devOf b = s.devOf b := fun b => by rw [Devices.devOf, hheap]; rfl
  exact ⟨⟨ledger', by rw [hhands]; exact howned⟩, fun b _ => hsame b, hown (hsame a ▸ hdev)⟩

/-- A step that links the packet in the hands of the operation into a list. -/
theorem KeepsOwned.of_linked (h : Owned s ledger (a :: rest)) (hdev : pkt.dev = p.owner)
    (hheap : s'.heap = s.heap.insert a { pkt with next := s.head p })
    (hhead : s'.head = update s.head p (some a)) (hhands : pcs.flatMap Pc.hands = [])
    (hown : ∀ pc ∈ pcs, pc.HoldsOwn s') : KeepsOwned s s' pcs rest := by
  obtain ⟨hnew, hrest⟩ := h.drop
  refine ⟨?_, fun b hb => ?_, hown⟩
  · rw [hhands]
    refine hrest.link hnew ?_ ?_ hheap hhead
    · rfl
    · exact hdev
  · have hne : b ≠ a := fun heq => hnew (List.mem_append_right _ (heq ▸ hb))
    rw [Devices.devOf, hheap, AList.lookup_insert_ne hne]
    rfl

/-- A step that writes the frame of the packet in the hands of the operation. -/
theorem KeepsOwned.of_written {pkt' : Packet} (h : Owned s ledger (a :: rest))
    (hpkt : s.heap.lookup a = some pkt) (hnext : pkt'.next = pkt.next) (hdev : pkt'.dev = pkt.dev)
    (hheap : s'.heap = s.heap.insert a pkt') (hhead : s'.head = s.head)
    (hhands : pcs.flatMap Pc.hands = [a])
    (hown : s'.devOf a = s.devOf a → ∀ pc ∈ pcs, pc.HoldsOwn s') : KeepsOwned s s' pcs rest := by
  refine ⟨⟨ledger, ?_⟩, fun b hb => ?_, hown ?_⟩
  · rw [hhands]
    exact h.write hpkt hnext hdev hheap hhead
  · have hne : b ≠ a := fun heq => h.drop.1 (List.mem_append_right _ (heq ▸ hb))
    simp [Devices.devOf, hheap, AList.lookup_insert_ne hne]
  · simp [Devices.devOf, hheap, hpkt, hdev]

/-- Freeing a pool and setting it up again. -/
theorem rebuild_keepsOwned {t : Devices} {kmalloc : ℕ → Option Addr} (h : Owned s ledger rest)
    (hfree : teardownPool s d = some t) (hsetup : setupPool cfg t d kmalloc = some s')
    (hhands : pcs.flatMap Pc.hands = []) (hown : ∀ pc ∈ pcs, pc.HoldsOwn s') :
    KeepsOwned s s' pcs rest := by
  obtain ⟨hfreed, hempty, hframe⟩ := h.of_teardownPool hfree
  obtain ⟨howned, hframe'⟩ := hfreed.of_setupPool hempty hsetup
  refine ⟨?_, fun a ha => (hframe' a ha).trans (hframe a ha), hown⟩
  rw [hhands]
  exact howned

/-- Every transition keeps the ownership of packets. -/
theorem Transition.keepsOwned (h : Owned s ledger (pc.hands ++ rest)) (hown : pc.HoldsOwn s)
    (htrans : Transition cfg s choice pc s' pcs) : KeepsOwned s s' pcs rest := by
  cases htrans with
  | tooShort | testRxOn | testRxOff | readRx | readTx | pollAgain | pollDone | pollSpent
  | timeoutReadTx =>
    exact .of_same h (.refl s) rfl (List.forall_iff_forall_mem.mp trivial)
  | xmitStore | outOfPool | storeLen | writeTx | lockup | releaseWake | pollComplete
  | timeoutErrors | timeoutWake | devOpen | devDisable =>
    exact .of_same h (.modify s _ rfl rfl) rfl (List.forall_iff_forall_mem.mp trivial)
  | regularIdle | napiInterrupt =>
    exact .of_same h (.modify (s.freeSkb _ _) _ rfl rfl) rfl (List.forall_iff_forall_mem.mp trivial)
  | pollRx =>
    exact .of_same h (.modify (s.handOn _ _ _) _ rfl rfl) rfl
      (List.forall_iff_forall_mem.mp ⟨trivial, trivial⟩)
  | getTxBuffer _ _ hpool hpkt =>
    refine .of_popped h (.modify_pool hpool hpkt rfl rfl) rfl fun hdev => ?_
    simpa [Pc.HoldsOwn, Place.owner] using hdev
  | fill hpkt =>
    refine .of_written h hpkt ?_ ?_ rfl rfl rfl fun hdev => ?_
    · rfl
    · rfl
    · simpa [Pc.HoldsOwn, hdev] using hown
  | @enqueue d len a pkt _ hpkt =>
    have hdev : pkt.dev = d := by simpa [Pc.HoldsOwn, Devices.devOf, hpkt] using hown
    exact .of_linked (p := .rx d.twin) h (by simp [hdev, Place.owner]) rfl
      (Devices.head_modify_rx _ _ rfl) rfl (List.forall_iff_forall_mem.mp trivial)
  | @writeRx d len old =>
    exact .of_same h (.modify s d.twin rfl rfl) (cfg.flatMap_interrupt d.twin [.hwTxLen d len])
      (List.forall_iff_forall_mem.mp ⟨cfg.holdsOwn_interrupt d.twin _, trivial⟩)
  | @noLockup d _ =>
    exact .of_same h (.refl s) (cfg.flatMap_interrupt d [])
      (by simpa using cfg.holdsOwn_interrupt d s)
  | regularReceive _ _ hqueue hpkt | pollDequeue _ hqueue hpkt =>
    exact .of_popped h (.modify_rx hqueue hpkt rfl rfl rfl rfl) rfl
      fun _ => List.forall_mem_singleton.mpr trivial
  | release hpkt =>
    exact .of_linked (p := .pool _) h rfl rfl (Devices.head_modify_pool _ _ rfl) rfl
      (List.forall_iff_forall_mem.mp trivial)
  | releaseStopped | releaseNext =>
    refine .of_same h (.refl s) ?_ ?_
    · split_ifs <;> rfl
    · split_ifs <;> simp [Pc.HoldsOwn]
  | @timeoutWriteTx d old =>
    exact .of_same h (.modify s d rfl rfl) (cfg.flatMap_interrupt d [.timeoutErrors d])
      (List.forall_iff_forall_mem.mp ⟨cfg.holdsOwn_interrupt d _, trivial⟩)
  | timeoutRebuild _ hfree hsetup =>
    exact rebuild_keepsOwned h hfree hsetup rfl (List.forall_iff_forall_mem.mp trivial)
  | devStop =>
    refine .of_same h (.modify s _ rfl rfl) ?_ ?_
    · split_ifs <;> rfl
    · split_ifs <;> simp [Pc.HoldsOwn]

section Heap

variable (htrans : Transition cfg s choice pc s' pcs)
include htrans

/-- A transition leaves the memory alone, writes to the packet in its hands, or
rebuilds a pool. -/
theorem Transition.heap_cases : s'.heap = s.heap ∨
    (∃ a pkt pkt', pc.hands = [a] ∧ s.heap.lookup a = some pkt ∧ pkt'.dev = pkt.dev ∧
      s'.heap = s.heap.insert a pkt') ∨
    ∃ d t, pc = .timeoutRebuild d ∧ teardownPool s d = some t ∧
      setupPool cfg t d choice.kmalloc = some s' := by
  cases htrans with
  | @fill d buf a pkt hpkt =>
    exact .inr (.inl ⟨a, pkt, { pkt with datalen := buf.length, data := buf }, rfl, hpkt, rfl, rfl⟩)
  | @enqueue d len a pkt _ hpkt =>
    exact .inr (.inl ⟨a, pkt, { pkt with next := (s.priv d.twin).rxQueue }, rfl, hpkt, rfl, rfl⟩)
  | @release a pkt hpkt _ =>
    exact .inr (.inl ⟨a, pkt, { pkt with next := (s.priv pkt.dev).ppool }, rfl, hpkt, rfl, rfl⟩)
  | timeoutRebuild _ hfree hsetup => exact .inr (.inr ⟨_, _, rfl, hfree, hsetup⟩)
  | _ => exact .inl rfl

/-- A transition touches no packet on a receive queue and none held elsewhere. -/
theorem Transition.lookup_eq (h : Owned s ledger (pc.hands ++ rest))
    (ha : a ∈ rest ∨ ∃ d, a ∈ ledger (.rx d)) : s'.heap.lookup a = s.heap.lookup a := by
  have hmem : a ∈ ledger.addresses ++ rest :=
    List.mem_append.mpr (ha.elim .inr fun ⟨_, ha⟩ => .inl (Ledger.mem_addresses ha))
  rcases htrans.heap_cases with hheap | ⟨b, pkt, pkt', hb, -, -, hheap⟩ |
    ⟨d, t, rfl, hfree, hsetup⟩
  · rw [hheap]
  · rw [hb] at h
    have hne : a ≠ b := fun heq => h.drop.1 (heq ▸ hmem)
    rw [hheap, AList.lookup_insert_ne hne]
  · have hkept : a ∈ Ledger.addresses (update ledger (.pool d) []) ++ rest := by
      refine List.mem_append.mpr (ha.elim .inr fun ⟨e, ha⟩ => .inl ?_)
      exact Ledger.mem_addresses (p := .rx e) (by simpa using ha)
    exact h.lookup_rebuild hfree hsetup (h.isSome_devOf hmem) fun hpool =>
      h.not_mem_update hpool hkept

/-- Packets keep their device, unless a pool is rebuilt. -/
theorem Transition.devOf_eq (hpc : ∀ d, pc ≠ .timeoutRebuild d) (a : Addr) :
    s'.devOf a = s.devOf a := by
  rcases htrans.heap_cases with hheap | ⟨b, pkt, pkt', -, hpkt, hdev, hheap⟩ | ⟨d, t, hd, -⟩
  · rw [Devices.devOf, hheap]
    rfl
  · rw [Devices.devOf, hheap]
    rcases eq_or_ne a b with rfl | hne
    · simp [Devices.devOf, hpkt, hdev]
    · simp [Devices.devOf, AList.lookup_insert_ne hne]
  · exact absurd hd (hpc d)

end Heap

/-- A program counter only cares about the packets in its hands. -/
theorem Pc.HoldsOwn.congr (h : pc.HoldsOwn s) (hdev : ∀ a ∈ pc.hands, s'.devOf a = s.devOf a) :
    pc.HoldsOwn s' := by
  cases pc with
  | hwTxFill d buf a => exact (hdev a List.mem_cons_self).trans h
  | hwTxEnqueue d len a => exact (hdev a List.mem_cons_self).trans h
  | _ => trivial

/-- Packets are owned once, by the lists and by the given program counters, and
transmitting operations hold packets of their own device. -/
structure OwnedBy (s : Devices) (pcs : List Pc) : Prop where
  /-- Some ledger describes the lists. -/
  owned : ∃ ledger, Owned s ledger (pcs.flatMap Pc.hands)
  /-- Transmitting operations hold packets of their own device. -/
  holdsOwn : ∀ pc ∈ pcs, pc.HoldsOwn s

/-- The order of the program counters does not matter. -/
theorem OwnedBy.perm {pcs' : List Pc} (h : OwnedBy s pcs) (hperm : pcs.Perm pcs') :
    OwnedBy s pcs' := by
  obtain ⟨⟨ledger, howned⟩, hown⟩ := h
  exact ⟨⟨ledger, howned.perm (hperm.flatMap_right _)⟩,
    fun pc hpc => hown pc (hperm.mem_iff.mpr hpc)⟩

/-- A transition of one program counter keeps what the others own. -/
theorem OwnedBy.next {others : List Pc} (h : OwnedBy s (pc :: others))
    (htrans : Transition cfg s choice pc s' pcs) : OwnedBy s' (pcs ++ others) := by
  obtain ⟨⟨ledger, howned⟩, hown⟩ := h
  obtain ⟨howned', hdev, hpcs⟩ := htrans.keepsOwned howned (hown pc List.mem_cons_self)
  refine ⟨by rwa [List.flatMap_append], fun pc' hpc' => ?_⟩
  rcases List.mem_append.mp hpc' with hpc' | hpc'
  · exact hpcs pc' hpc'
  · refine (hown pc' (List.mem_cons_of_mem _ hpc')).congr fun a ha => hdev a ?_
    exact List.mem_flatMap.mpr ⟨pc', hpc', ha⟩

/-- The packets in the hands of all operations in progress. -/
def System.hands (s : System) : List Addr :=
  s.threads.flatMap fun stack => stack.flatMap Pc.hands

/-- The invariant of the system: packets are owned once, and transmitting operations
hold packets of their own device. -/
structure System.OwnedOnce (s : System) : Prop where
  /-- Some ledger describes the lists. -/
  owned : ∃ ledger, Owned s.devices ledger s.hands
  /-- Transmitting operations hold packets of their own device. -/
  holdsOwn : ∀ stack ∈ s.threads, ∀ pc ∈ stack, pc.HoldsOwn s.devices

/-- The loaded module owns the packets of its two pools. -/
theorem Devices.Initialised.owned (h : s.Initialised cfg) : ∃ ledger, Owned s ledger [] := by
  obtain ⟨kmalloc, hinit⟩ := h
  obtain ⟨t, hfirst, hsecond⟩ := Option.bind_eq_some_iff.mp hinit
  have hempty : Owned ⟨∅, fun _ => .initial, [], fun _ => []⟩ (fun _ => []) [] := by
    refine ⟨fun p => ?_, by simp [Ledger.addresses, Place.all], by simp, by simp⟩
    cases p <;> exact .nil
  obtain ⟨⟨ledger, howned⟩, -⟩ := hempty.of_setupPool rfl hfirst
  refine (howned.of_setupPool ?_ hsecond).1
  obtain ⟨r, -, rfl⟩ := Option.map_eq_some_iff.mp hfirst
  rfl

/-- The invariant of the system in terms of its program counters. -/
theorem System.ownedOnce_iff : t.OwnedOnce ↔ OwnedBy t.devices t.pcs := by
  have hhands : t.hands = t.pcs.flatMap Pc.hands := List.flatMap_assoc.symm
  constructor
  · rintro ⟨howned, hown⟩
    exact ⟨hhands ▸ howned, by simpa [System.pcs] using fun pc stack hstack => hown stack hstack pc⟩
  · rintro ⟨howned, hown⟩
    exact ⟨hhands ▸ howned, fun stack hstack pc hpc =>
      hown pc (List.mem_flatMap.mpr ⟨stack, hstack, hpc⟩)⟩

/-- Every event keeps the invariant. -/
theorem System.OwnedOnce.next {t' : System} {event : Event} (h : t.OwnedOnce)
    (hnext : t.next cfg event = some t') : t'.OwnedOnce := by
  rw [System.ownedOnce_iff] at h ⊢
  cases System.move_of_next hnext with
  | @call op hdevices hpcs =>
    have hentry : op.entry.hands = [] := by cases op <;> rfl
    have hown : op.entry.HoldsOwn t.devices := by cases op <;> trivial
    rw [hdevices]
    refine OwnedBy.perm ⟨?_, List.forall_mem_cons.mpr ⟨hown, h.holdsOwn⟩⟩ hpcs.symm
    simpa [hentry] using h.owned
  | run _ hbefore htrans hafter => exact ((h.perm hbefore).next htrans).perm hafter.symm

/-- The invariant holds in every reachable state. -/
theorem System.OwnedOnce.of_reachable
    (hreach : (driverMachine cfg (Devices.Initialised cfg)).Reachable t) : t.OwnedOnce := by
  refine hreach.invariant System.OwnedOnce ?_ fun t event t' h _ hnext => h.next hnext
  rintro ⟨s, threads⟩ ⟨hstart, hthreads⟩
  cases hthreads
  exact ⟨hstart.owned, by simp⟩

/-- **Buffer ownership.** However the operations of both devices interleave, the two
pools and the two receive queues are null-terminated lists of allocated packets.
Together with the packets in the hands of operations they are pairwise disjoint and
free of duplicates, every packet in a pool belongs to that device, and every packet
in a receive queue belongs to the other device. -/
theorem packets_owned_once (cfg : Config) {t : System}
    (hreach : (driverMachine cfg (Devices.Initialised cfg)).Reachable t) :
    ∃ ppool rxQueue : DevId → List Addr,
      (∀ d, Chain Packet.next (fun a => t.devices.heap.lookup a) (t.devices.priv d).ppool
        (ppool d)) ∧
      (∀ d, Chain Packet.next (fun a => t.devices.heap.lookup a) (t.devices.priv d).rxQueue
        (rxQueue d)) ∧
      (ppool .dev0 ++ ppool .dev1 ++ rxQueue .dev0 ++ rxQueue .dev1 ++ t.hands).Nodup ∧
      (∀ a ∈ ppool .dev0 ++ ppool .dev1 ++ rxQueue .dev0 ++ rxQueue .dev1 ++ t.hands,
        a ∈ t.devices.heap) ∧
      (∀ d, ∀ a ∈ ppool d, t.devices.devOf a = some d) ∧
      (∀ d, ∀ a ∈ rxQueue d, t.devices.devOf a = some d.twin) := by
  obtain ⟨ledger, h⟩ := (System.OwnedOnce.of_reachable hreach).owned
  have haddresses : ledger (.pool .dev0) ++ ledger (.pool .dev1) ++ ledger (.rx .dev0) ++
      ledger (.rx .dev1) = ledger.addresses := by
    simp [Ledger.addresses, Place.all]
  refine ⟨fun d => ledger (.pool d), fun d => ledger (.rx d), fun d => h.chain (.pool d),
    fun d => h.chain (.rx d), ?_, fun a ha => ?_, fun d => h.owner (.pool d),
    fun d => h.owner (.rx d)⟩
  · rw [haddresses]
    exact h.nodup
  · rw [haddresses] at ha
    have hsome := h.isSome_devOf ha
    rw [Devices.devOf, Option.isSome_map] at hsome
    exact AList.lookup_isSome.mp hsome

/-- A transmission holds a packet while a timeout frees the rest of its pool and
sets up a new one. -/
def Event.timeoutInFlight : List Event :=
  [.call (.xmit .dev0 7 []), .run 0 {}, .run 0 {}, .call (.txTimeout .dev0), .run 1 {}, .run 1 {},
    .run 1 {}, .run 1 {}, .run 1 { kmalloc := fun i => some (i + 5) }]

/-- After the timeout the transmission still holds its packet, while the other packet
of the old pool was freed. -/
theorem packets_owned_once_timeoutInFlight :
    ∃ t, (driverMachine .sample (Devices.Initialised .sample)).run ⟨.sample, []⟩
        Event.timeoutInFlight = some t ∧
      t.hands = [2] ∧ (t.devices.heap.lookup 1).isNone ∧
      ∃ ppool rxQueue : DevId → List Addr,
        (∀ d, Chain Packet.next (fun a => t.devices.heap.lookup a) (t.devices.priv d).ppool
          (ppool d)) ∧
        (∀ d, Chain Packet.next (fun a => t.devices.heap.lookup a) (t.devices.priv d).rxQueue
          (rxQueue d)) ∧
        (ppool .dev0 ++ ppool .dev1 ++ rxQueue .dev0 ++ rxQueue .dev1 ++ t.hands).Nodup ∧
        (∀ a ∈ ppool .dev0 ++ ppool .dev1 ++ rxQueue .dev0 ++ rxQueue .dev1 ++ t.hands,
          a ∈ t.devices.heap) ∧
        (∀ d, ∀ a ∈ ppool d, t.devices.devOf a = some d) ∧
        (∀ d, ∀ a ∈ rxQueue d, t.devices.devOf a = some d.twin) := by
  have hrun : ∃ t, (driverMachine .sample (Devices.Initialised .sample)).run ⟨.sample, []⟩
      Event.timeoutInFlight = some t ∧ t.hands = [2] ∧ (t.devices.heap.lookup 1).isNone :=
    ⟨_, rfl, rfl, rfl⟩
  obtain ⟨t, hrun, hhands, hfreed⟩ := hrun
  exact ⟨t, hrun, hhands, hfreed,
    packets_owned_once .sample (.of_run (.start ⟨Devices.sample_initialised, rfl⟩) hrun)⟩

end Hack.Dummeth
