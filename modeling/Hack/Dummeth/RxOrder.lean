import Hack.Dummeth.RxQueue

/-!
# The order in which frames are delivered

A frame passed to `dummeth_xmit` is on its way through the transmission, a packet on the
receive queue of the twin device, and the hands of a poll, until it is handed to the
network stack. `dummeth_enqueue_buf` puts a packet in front of the queue, where
`dummeth_dequeue_buf` takes the next one, so the frames come out in the order they went in
only as long as each of them finds the queue empty.
-/

namespace Hack.Dummeth

open LinkedList

/-- The frames passed to `dummeth_xmit` of a device. -/
def passedFrames (d : DevId) (_ : System) : Event → List (List UInt8)
  | .call (.xmit e _ frame) => if e = d then [frame] else []
  | _ => []

/-- The frame as it is sent: padded, and with its addresses rewritten. -/
def sentFrame (cfg : Config) (frame : List UInt8) : List UInt8 := rewriteFrame cfg (padFrame frame)

/-- What the kernel calls: operations of the mode, a transmission on a device only after the
last one has enqueued its packet, and a poll of a device only after the last one. -/
def KernelCalls (cfg : Config) (t : System) : Event → Prop
  | .call op => op.InMode cfg ∧ match op with
    | .xmit d _ _ => ∀ pc ∈ t.pcs, pc.beforeEnqueue d = false
    | .poll d _ => ∀ pc ∈ t.pcs, pc.polling d = false
    | _ => True
  | .run _ _ => True

/-- The condition on an event: a transmission of the device enqueues its packet only while
the receive queue of the twin device is empty. -/
def EnqueuesOnEmpty (d : DevId) (t : System) : Event → Prop
  | .call _ => True
  | .run i _ => match t.threads[i]? with
    | some (.hwTxEnqueue e _ _ :: _) => e = d → (t.devices.priv d.twin).rxQueue = none
    | _ => True

/-- The frame in a packet. -/
def Devices.frameAt (s : Devices) (a : Addr) : List (List UInt8) :=
  ((s.heap.lookup a).map Packet.frame).toList

/-- The frame a poll of a device has taken off the queue. -/
@[simp] def Pc.heldFrames (s : Devices) (d : DevId) : Pc → List (List UInt8)
  | .pollRx e _ _ a => if e = d then s.frameAt a else []
  | _ => []

/-- The frame a transmission of a device is about to enqueue, as it is sent. -/
@[simp] def Pc.pendingFrames (cfg : Config) (s : Devices) (d : DevId) : Pc → List (List UInt8)
  | .xmitStore e _ frame => if e = d then [sentFrame cfg frame] else []
  | .hwTx e buf => if e = d then [rewriteFrame cfg buf] else []
  | .hwTxFill e buf _ => if e = d then [buf] else []
  | .hwTxEnqueue e _ a => if e = d then s.frameAt a else []
  | _ => []

/-- The frames on their way from a device to its twin, in the order in which they are to be
delivered, behind those that were delivered. -/
def Devices.inTransit (cfg : Config) (s : Devices) (pcs : List Pc) (d : DevId) (l : List Addr) :
    List (List UInt8) :=
  s.delivered d.twin ++ pcs.flatMap (Pc.heldFrames s d.twin) ++ l.flatMap s.frameAt ++
    pcs.flatMap (Pc.pendingFrames cfg s d)

variable {cfg : Config} {s s' : Devices} {choice : Choice} {pc : Pc} {pcs rest : List Pc}
  {d e : DevId} {l : List Addr} {sent : List (List UInt8)} {t : System} {op : Op} {event : Event}

/-- Only a poll holds a frame. -/
theorem Pc.heldFrames_eq_nil (h : pc.polling d = false) : pc.heldFrames s d = [] := by
  cases pc <;> simp_all [Pc.polling]

/-- Only the holder of a packet holds a frame. -/
theorem Pc.heldFrames_of_holdsRx (h : pc.holdsRx d = false) : pc.heldFrames s d = [] := by
  cases pc <;> simp_all [Pc.holdsRx]

/-- Only a transmission has a frame to enqueue. -/
theorem Pc.pendingFrames_eq_nil (h : pc.beforeEnqueue d = false) :
    pc.pendingFrames cfg s d = [] := by
  cases pc <;> simp_all [Pc.beforeEnqueue]

/-- A program counter only cares about the frames of the packets in its hands. -/
theorem Pc.frames_congr (hlookup : ∀ a ∈ pc.hands, s'.heap.lookup a = s.heap.lookup a) :
    pc.heldFrames s' d = pc.heldFrames s d ∧
      pc.pendingFrames cfg s' e = pc.pendingFrames cfg s e := by
  cases pc <;> simp_all [Pc.hands, Devices.frameAt]

/-- A transition passes a frame that is to be enqueued on, or loses it. -/
theorem Transition.pending_sublist (htrans : Transition cfg s choice pc s' pcs) (d : DevId) :
    (pcs.flatMap (Pc.pendingFrames cfg s' d)).Sublist (pc.pendingFrames cfg s d) := by
  have hinterrupt : ∀ e, (cfg.interrupt e).pendingFrames cfg s' d = [] := fun e =>
    Pc.pendingFrames_eq_nil (cfg.interrupt_idle d e).1
  cases htrans with
  | xmitStore | getTxBuffer => simp [sentFrame]
  | @fill e buf a pkt hpkt =>
    have hframe : Packet.frame { pkt with datalen := buf.length, data := buf } = buf := by
      simp [Packet.frame]
    simp [Devices.frameAt, hframe]
  | writeRx | timeoutWriteTx | noLockup =>
    rw [List.flatMap_cons, hinterrupt]
    exact List.nil_sublist _
  | releaseStopped | releaseNext | devStop => split_ifs <;> exact List.nil_sublist _
  | _ => exact List.nil_sublist _

/-- The frames in the hands of others are not touched by a transition. -/
theorem Transition.frames_rest (htrans : Transition cfg s choice pc s' pcs)
    (howned : OwnedBy s (pc :: rest)) (d e : DevId) :
    rest.flatMap (Pc.heldFrames s' d) = rest.flatMap (Pc.heldFrames s d) ∧
      rest.flatMap (Pc.pendingFrames cfg s' e) = rest.flatMap (Pc.pendingFrames cfg s e) := by
  obtain ⟨ledger, howned⟩ := howned.owned
  have hframes : ∀ pc' ∈ rest, pc'.heldFrames s' d = pc'.heldFrames s d ∧
      pc'.pendingFrames cfg s' e = pc'.pendingFrames cfg s e := fun pc' hpc' =>
    Pc.frames_congr fun a ha =>
      htrans.lookup_eq howned (.inl (List.mem_flatMap.mpr ⟨pc', hpc', ha⟩))
  exact ⟨List.flatMap_congr fun pc' hpc' => (hframes pc' hpc').1,
    List.flatMap_congr fun pc' hpc' => (hframes pc' hpc').2⟩

/-- One transmission of a device and one poll of its twin are in progress at most, and polls
and handlers are those of the mode. -/
structure Serialised (cfg : Config) (pcs : List Pc) (d : DevId) : Prop where
  oneSender : pcs.countP (Pc.beforeEnqueue d) ≤ 1
  onePoll : pcs.countP (Pc.polling d.twin) ≤ 1
  napi : cfg.useNapi = false → pcs.countP (Pc.polling d.twin) = 0
  inMode : ∀ pc ∈ pcs, pc.InMode cfg

/-- The order of the program counters does not matter. -/
theorem Serialised.perm (h : Serialised cfg pcs d) (hperm : pcs.Perm rest) :
    Serialised cfg rest d := by
  refine ⟨?_, ?_, fun hmode => ?_, fun pc hpc => h.inMode pc (hperm.mem_iff.mpr hpc)⟩
  · exact hperm.countP_eq (Pc.beforeEnqueue d) ▸ h.oneSender
  · exact hperm.countP_eq (Pc.polling d.twin) ▸ h.onePoll
  · exact hperm.countP_eq (Pc.polling d.twin) ▸ h.napi hmode

section Serialised

variable (h : Serialised cfg (pc :: rest) d)
include h

/-- Every transition keeps transmissions and polls serialised. -/
theorem Serialised.transition (htrans : Transition cfg s choice pc s' pcs) :
    Serialised cfg (pcs ++ rest) d := by
  obtain ⟨hsender, -⟩ := htrans.countP_le d
  obtain ⟨-, hpoll⟩ := htrans.countP_le d.twin
  obtain ⟨honeSender, honePoll, hnapi, hmode⟩ := h
  rw [← List.singleton_append, List.countP_append] at honeSender honePoll hnapi
  refine ⟨?_, ?_, fun hregular => ?_, htrans.inMode hmode⟩
  · rw [List.countP_append]
    omega
  · rw [List.countP_append]
    omega
  · have hzero := hnapi hregular
    rw [List.countP_append]
    omega

/-- Where one poll is in progress, the others hold no frame. -/
theorem Serialised.held_rest (hpc : pc.polling d.twin = true) :
    rest.flatMap (Pc.heldFrames s d.twin) = [] :=
  Custody.flatMap_eq_nil_of_one (fun _ => Pc.heldFrames_eq_nil) hpc h.onePoll

/-- In regular mode no frame is held. -/
theorem Serialised.held_regular (hmode : cfg.useNapi = false) :
    rest.flatMap (Pc.heldFrames s d.twin) = [] := by
  refine List.flatMap_eq_nil_iff.mpr fun pc' hpc' => Pc.heldFrames_eq_nil ?_
  simpa using List.countP_eq_zero.mp (h.napi hmode) pc' (List.mem_cons_of_mem _ hpc')

end Serialised

/-- The frame of a packet only depends on its bytes. -/
theorem Devices.frameAt_eq {a : Addr} {pkt : Packet} (hpkt : s.heap.lookup a = some pkt) :
    s.frameAt a = [pkt.frame] := by
  simp [Devices.frameAt, hpkt]

/-- The frames of packets that are not touched. -/
theorem Devices.flatMap_frameAt_eq (hlookup : ∀ a ∈ l, s'.heap.lookup a = s.heap.lookup a) :
    l.flatMap s'.frameAt = l.flatMap s.frameAt :=
  List.flatMap_congr fun a ha => by rw [Devices.frameAt, hlookup a ha, Devices.frameAt]

/-- A frame that was handed on, or dropped. -/
theorem handed_sublist {α : Type} (frame : α) (skbAlloc : Bool) (l : List α) :
    ((if skbAlloc then [frame] else []) ++ l).Sublist (frame :: l) := by
  cases skbAlloc
  · exact List.sublist_cons_self frame l
  · exact List.Sublist.refl _

/-- Every transition passes the frames in transit on in order, or loses one, as long as a
packet is enqueued only on an empty queue. -/
theorem Transition.inTransit_sublist (htrans : Transition cfg s choice pc s' pcs)
    (howned : OwnedBy s (pc :: rest)) (hserial : Serialised cfg (pc :: rest) d)
    (hempty : ∀ len a, pc = .hwTxEnqueue d len a → (s.priv d.twin).rxQueue = none)
    (hqueue : s.RxQueue d.twin l) : ∃ l', s'.RxQueue d.twin l' ∧
      (s'.inTransit cfg (pcs ++ rest) d l').Sublist (s.inTransit cfg (pc :: rest) d l) := by
  have hlookup := htrans.lookup_rxQueue howned hqueue
  have hpending := htrans.pending_sublist d
  obtain ⟨hheldRest, hpendingRest⟩ := htrans.frames_rest howned d.twin d
  simp only [Devices.inTransit, List.flatMap_append, List.flatMap_cons, hheldRest, hpendingRest]
  cases htrans.rxEffect d.twin with
  | quiet hside hdelivered _ hpc hpcs =>
    have hheld : pc.heldFrames s d.twin = [] := Pc.heldFrames_of_holdsRx hpc
    have hheld' : pcs.flatMap (Pc.heldFrames s' d.twin) = [] :=
      List.flatMap_eq_nil_iff.mpr fun pc' hpc' => Pc.heldFrames_of_holdsRx (hpcs pc' hpc')
    refine ⟨l, hqueue.keep hlookup (Priv.rxSide_eq_iff.mp hside).1, ?_⟩
    rw [hdelivered, hheld, hheld', Devices.flatMap_frameAt_eq hlookup]
    exact (List.Sublist.refl _).append (hpending.append_right _)
  | @enqueue e len a pkt htwin hpkt hpkt' hhead _ hdelivered =>
    obtain rfl : e = d := by rw [← e.twin_twin, htwin, d.twin_twin]
    have hnil : l = [] := by
      rw [Devices.RxQueue, hempty len a rfl] at hqueue
      exact hqueue.unique .nil
    subst hnil
    refine ⟨[a], hqueue.push hlookup hpkt' rfl hhead, ?_⟩
    -- The frame moves from the hands of the transmission to the queue.
    simp [hdelivered, Devices.frameAt_eq hpkt, Devices.frameAt_eq hpkt', Packet.frame]
  | @dequeue budget npackets a pkt hhead hpkt hnext _ hdelivered =>
    obtain ⟨l', rfl, hqueue'⟩ := hqueue.pop hlookup hhead hpkt hnext
    refine ⟨l', hqueue', ?_⟩
    -- The frame moves from the queue to the hands of the poll.
    rw [hserial.held_rest (by simp [Pc.polling]), ← Devices.flatMap_frameAt_eq hlookup]
    simp [hdelivered]
  | @count budget npackets a pkt hpkt hhead _ hdelivered =>
    refine ⟨l, hqueue.keep hlookup hhead, ?_⟩
    rw [hserial.held_rest (by simp [Pc.polling]), Devices.flatMap_frameAt_eq hlookup, hdelivered]
    simpa [Devices.frameAt_eq hpkt] using
      handed_sublist pkt.frame choice.skbAlloc _
  | @receive a pkt hhead hpkt hnext _ hdelivered =>
    obtain ⟨l', rfl, hqueue'⟩ := hqueue.pop hlookup hhead hpkt hnext
    have hframes := Devices.flatMap_frameAt_eq fun b hb => hlookup b (List.mem_cons_of_mem a hb)
    have hmode : cfg.useNapi = false := hserial.inMode _ List.mem_cons_self
    refine ⟨l', hqueue', ?_⟩
    rw [hserial.held_regular hmode, hframes, hdelivered]
    simpa [Devices.frameAt_eq hpkt] using
      handed_sublist pkt.frame choice.skbAlloc _

/-- An operation of the kernel starts with the frame that is passed with it, and with no
frame in its hands. -/
theorem Op.frames_entry (op : Op) (cfg : Config) (t : System) (d : DevId)
    (hnot : ∀ e buf, op ≠ .hwTx e buf) :
    op.entry.heldFrames t.devices d.twin = [] ∧ op.entry.pendingFrames cfg t.devices d =
        (passedFrames d t (.call op)).map (sentFrame cfg) := by
  cases op with
  | xmit e skb frame =>
    refine ⟨rfl, ?_⟩
    by_cases he : e = d <;> simp [Op.entry, passedFrames, he]
  | hwTx e buf => exact absurd rfl (hnot e buf)
  | _ => exact ⟨rfl, rfl⟩

/-- At first nothing is in transit. -/
theorem Devices.Initialised.inTransit (h : s.Initialised cfg) (d : DevId) :
    s.RxQueue d.twin [] ∧ s.inTransit cfg [] d [] = [] := by
  constructor
  · rw [Devices.RxQueue, h.priv_eq d.twin]
    exact .nil
  · have hdelivered : s.delivered = fun _ => [] := h.logs.2
    simp [Devices.inTransit, hdelivered]

/-- The delivered frames come first among those in transit. -/
theorem Devices.delivered_sublist_inTransit (s : Devices) (cfg : Config) (pcs : List Pc)
    (d : DevId) (l : List Addr) :
    (s.delivered d.twin).Sublist (s.inTransit cfg pcs d l) := by
  simp only [Devices.inTransit, List.append_assoc]
  exact List.sublist_append_left _ _

/-- The delivered frames and those in transit are frames that were sent, in order. -/
structure InOrder (cfg : Config) (s : Devices) (pcs : List Pc) (d : DevId)
    (sent : List (List UInt8)) : Prop where
  serialised : Serialised cfg pcs d
  sublist : ∃ l, s.RxQueue d.twin l ∧ (s.inTransit cfg pcs d l).Sublist sent

/-- The order of the program counters does not matter. -/
theorem InOrder.perm (h : InOrder cfg s pcs d sent) (hperm : pcs.Perm rest) :
    InOrder cfg s rest d sent := by
  obtain ⟨l, hqueue, hsub⟩ := h.sublist
  refine ⟨h.serialised.perm hperm, l, hqueue, ?_⟩
  have hheld : pcs.flatMap (Pc.heldFrames s d.twin) = rest.flatMap (Pc.heldFrames s d.twin) :=
    Custody.flatMap_eq_of_perm (fun _ => Pc.heldFrames_eq_nil) h.serialised.onePoll hperm
  have hpending :
      pcs.flatMap (Pc.pendingFrames cfg s d) = rest.flatMap (Pc.pendingFrames cfg s d) :=
    Custody.flatMap_eq_of_perm (fun _ => Pc.pendingFrames_eq_nil) h.serialised.oneSender hperm
  rwa [Devices.inTransit, ← hheld, ← hpending]

/-- A call that the kernel makes keeps transmissions and polls serialised. -/
theorem Serialised.call (h : Serialised cfg t.pcs d) (hcalls : KernelCalls cfg t (.call op)) :
    Serialised cfg (op.entry :: t.pcs) d := by
  obtain ⟨hmode, hcalls⟩ := hcalls
  have hzero : ∀ p : Pc → Bool, (∀ pc ∈ t.pcs, p pc = false) → t.pcs.countP p = 0 :=
    fun p hp => List.countP_eq_zero.mpr fun pc hpc => by simp [hp pc hpc]
  have hskip : ∀ {p : Pc → Bool} {pc : Pc} {n : ℕ}, p pc = false → t.pcs.countP p ≤ n →
      (pc :: t.pcs).countP p ≤ n := fun hp hle => by
    rwa [List.countP_cons_of_neg (by simp [hp])]
  have honeSender := h.oneSender
  have honePoll := h.onePoll
  refine ⟨?_, ?_, fun hregular => ?_, List.forall_mem_cons.mpr ⟨hmode.entry, h.inMode⟩⟩
  · cases op with
    | xmit e skb frame =>
      rcases eq_or_ne e d with rfl | hne
      · simp [List.countP_cons, hzero _ hcalls]
        split_ifs <;> omega
      · exact hskip (decide_eq_false hne) honeSender
    | hwTx e buf => exact hmode.elim
    | _ => exact hskip rfl honeSender
  · cases op with
    | poll e budget =>
      rcases eq_or_ne e d.twin with rfl | hne
      · simp [List.countP_cons, hzero _ hcalls]
        split_ifs <;> omega
      · exact hskip (decide_eq_false hne) honePoll
    | _ => exact hskip rfl honePoll
  · have hnapi := h.napi hregular
    cases op with
    | poll e budget => simp [Op.InMode, hregular] at hmode
    | _ => exact Nat.le_zero.mp (hskip rfl (Nat.le_of_eq hnapi))

/-- A call sends the frame that is passed with it after all others. -/
theorem InOrder.call (h : InOrder cfg t.devices t.pcs d sent)
    (hcalls : KernelCalls cfg t (.call op)) : InOrder cfg t.devices (op.entry :: t.pcs) d
      (sent ++ (passedFrames d t (.call op)).map (sentFrame cfg)) := by
  obtain ⟨l, hqueue, hsub⟩ := h.sublist
  refine ⟨h.serialised.call hcalls, l, hqueue, ?_⟩
  have hnot : ∀ e buf, op ≠ .hwTx e buf := by
    rintro e buf rfl
    exact hcalls.1
  obtain ⟨hheld, hpending⟩ := op.frames_entry cfg t d hnot
  -- The frame is new only when no other is to be enqueued.
  have hcases : passedFrames d t (.call op) = [] ∨
      t.pcs.flatMap (Pc.pendingFrames cfg t.devices d) = [] := by
    cases op with
    | xmit e skb frame =>
      rcases eq_or_ne e d with rfl | hne
      · exact .inr (List.flatMap_eq_nil_iff.mpr fun pc hpc =>
          Pc.pendingFrames_eq_nil (hcalls.2 pc hpc))
      · exact .inl (by simp [passedFrames, hne])
    | _ => exact .inl rfl
  simp only [Devices.inTransit, List.flatMap_cons, hheld, hpending, List.nil_append] at hsub ⊢
  rcases hcases with hnone | hnone
  · simpa [hnone] using hsub
  · rw [hnone, List.append_nil] at hsub ⊢
    exact hsub.append_right _

/-- Every event that meets the conditions keeps the frames in order. -/
theorem InOrder.next {t' : System} {passed : List (List UInt8)}
    (h : InOrder cfg t.devices t.pcs d (passed.map (sentFrame cfg))) (howned : t.OwnedOnce)
    (hcalls : KernelCalls cfg t event) (hcond : EnqueuesOnEmpty d t event)
    (hnext : t.next cfg event = some t') : InOrder cfg t'.devices t'.pcs d
      ((passed ++ passedFrames d t event).map (sentFrame cfg)) := by
  cases System.move_of_next hnext with
  | @call op hdevices hpcs =>
    rw [hdevices, List.map_append]
    exact (h.call hcalls).perm hpcs.symm
  | @run i choice pc stack rest pcs hget hbefore htrans hafter =>
    have hnone : passedFrames d t (.run i choice) = [] := rfl
    rw [hnone, List.append_nil]
    have hempty : ∀ len a, pc = .hwTxEnqueue d len a → (t.devices.priv d.twin).rxQueue = none := by
      rintro len a rfl
      simpa [EnqueuesOnEmpty, hget] using hcond
    have howned' := (System.ownedOnce_iff.mp howned).perm hbefore
    obtain ⟨hserial, l, hqueue, hsub⟩ := h.perm hbefore
    obtain ⟨l', hqueue', hsub'⟩ := htrans.inTransit_sublist howned' hserial hempty hqueue
    have hafter' : InOrder cfg t'.devices (pcs ++ rest) d (passed.map (sentFrame cfg)) :=
      ⟨hserial.transition htrans, l', hqueue', hsub'.trans hsub⟩
    exact hafter'.perm hafter.symm

/-- **In-order delivery.** In every run in which each transmission of a device finds the
receive queue of its twin empty when it enqueues its packet, the frames the twin hands to the
network stack are a subsequence of the frames passed to `dummeth_xmit`, as they are sent.
Everything else may interleave freely: polls with any budgets, interrupts, timeouts, and the
operations of the other direction. -/
theorem delivered_sublist_of_sent (d : DevId) {t : System × List (List UInt8)}
    (hreach : ((driverMachine cfg (Devices.Initialised cfg)).observed
      (passedFrames d)).ReachableUnder
      (fun t event => KernelCalls cfg t.1 event ∧ EnqueuesOnEmpty d t.1 event) t) :
    (t.1.devices.delivered d.twin).Sublist (t.2.map (sentFrame cfg)) := by
  have hinv : t.1.OwnedOnce ∧ InOrder cfg t.1.devices t.1.pcs d (t.2.map (sentFrame cfg)) := by
    refine hreach.observed_invariant (fun t log => t.OwnedOnce ∧
      InOrder cfg t.devices t.pcs d (log.map (sentFrame cfg))) ?_ ?_
    · rintro ⟨s, threads⟩ ⟨hstart, hthreads⟩
      cases hthreads
      obtain ⟨hqueue, htransit⟩ := hstart.inTransit d
      refine ⟨⟨hstart.owned, by simp⟩, ⟨by simp [System.pcs], by simp [System.pcs],
        fun _ => rfl, by simp [System.pcs]⟩, [], hqueue, ?_⟩
      exact htransit.symm ▸ List.nil_sublist _
    · rintro t log event t' ⟨howned, h⟩ ⟨hcalls, hcond⟩ hnext
      exact ⟨howned.next hnext, h.next howned hcalls hcond hnext⟩
  obtain ⟨l, -, hsub⟩ := hinv.2.sublist
  exact (t.1.devices.delivered_sublist_inTransit cfg t.1.pcs d l).trans hsub

/-- A check for transmissions and polls in NAPI mode that are called in turn. -/
def callsInTurn (t : System) : Event → Bool
  | .call (.xmit d _ _) => t.pcs.all fun pc => !pc.beforeEnqueue d
  | .call (.poll d _) => t.pcs.all fun pc => !pc.polling d
  | .call _ => false
  | .run _ _ => true

/-- Calls that pass the check are calls of the kernel. -/
theorem kernelCalls_of_callsInTurn (h : callsInTurn t event = true) :
    KernelCalls .sample t event := by
  cases event with
  | call op => cases op <;> simp_all [callsInTurn, KernelCalls, Op.InMode, Config.sample]
  | run i choice => trivial

/-- A check for transmissions that find the queue empty. -/
def enqueuesOnEmpty (d : DevId) (t : System) : Event → Bool
  | .call _ => true
  | .run i _ => match t.threads[i]? with
    | some (.hwTxEnqueue e _ _ :: _) => e ≠ d || (t.devices.priv d.twin).rxQueue.isNone
    | _ => true

/-- Transmissions that pass the check find the queue empty. -/
theorem enqueuesOnEmpty_of_check (h : enqueuesOnEmpty d t event = true) :
    EnqueuesOnEmpty d t event := by
  cases event with
  | call op => trivial
  | run i choice =>
    simp only [enqueuesOnEmpty, EnqueuesOnEmpty] at h ⊢
    split
    · rename_i e len a stack hget
      intro he
      simpa [hget, he] using h
    · trivial

/-- Two frames are transmitted, and each is polled before the next one. -/
def Event.polledInTurn : List Event :=
  Event.call (.xmit .dev0 7 [1]) :: List.replicate 13 (Event.run 0 {}) ++
  Event.call (.poll .dev1 2) :: List.replicate 7 (Event.run 1 {}) ++
  Event.call (.xmit .dev0 8 [2]) :: List.replicate 13 (Event.run 2 {}) ++
  Event.call (.poll .dev1 2) :: List.replicate 7 (Event.run 3 {})

/-- The two frames are delivered in the order in which they were sent. -/
theorem delivered_sublist_polledInTurn :
    ∃ t, ((driverMachine .sample (Devices.Initialised .sample)).observed
        (passedFrames .dev0)).ReachableUnder
        (fun t event => KernelCalls .sample t.1 event ∧ EnqueuesOnEmpty .dev0 t.1 event) t ∧
      (t.1.devices.delivered .dev1).length = 2 ∧
      (t.1.devices.delivered .dev1).Sublist (t.2.map (sentFrame .sample)) := by
  refine Machine.exists_reachableUnder (s := (⟨.sample, []⟩, []))
    ⟨⟨Devices.sample_initialised, rfl⟩, rfl⟩
    (fun t event => callsInTurn t.1 event && enqueuesOnEmpty .dev0 t.1 event)
    (fun t event hcheck => ?_) Event.polledInTurn
    (fun t => (t.1.devices.delivered .dev1).length = 2) ⟨_, rfl, rfl⟩
    fun t hreach hlength => ⟨hlength, delivered_sublist_of_sent .dev0 hreach⟩
  obtain ⟨hcalls, hempty⟩ := Bool.and_eq_true_iff.mp hcheck
  exact ⟨kernelCalls_of_callsInTurn hcalls, enqueuesOnEmpty_of_check hempty⟩

/-- Two frames are transmitted before the twin device polls. -/
def Event.polledLate : List Event :=
  Event.call (.xmit .dev0 7 [1]) :: List.replicate 13 (Event.run 0 {}) ++
  Event.call (.xmit .dev0 8 [2]) :: List.replicate 10 (Event.run 1 {}) ++
  Event.call (.poll .dev1 2) :: List.replicate 13 (Event.run 2 {})

/-- The twin device delivers the second frame before the first. -/
theorem delivered_out_of_order :
    ∃ t, ((driverMachine .sample (Devices.Initialised .sample)).observed
        (passedFrames .dev0)).ReachableUnder (fun t event => KernelCalls .sample t.1 event) t ∧
      t.2 = [[1], [2]] ∧
      t.1.devices.delivered .dev1 = [sentFrame .sample [2], sentFrame .sample [1]] ∧
      ¬(t.1.devices.delivered .dev1).Sublist (t.2.map (sentFrame .sample)) := by
  refine Machine.exists_reachableUnder (s := (⟨.sample, []⟩, []))
    ⟨⟨Devices.sample_initialised, rfl⟩, rfl⟩ (fun t event => callsInTurn t.1 event)
    (fun _ _ => kernelCalls_of_callsInTurn) Event.polledLate
    (fun t => t.2 = [[1], [2]] ∧
      t.1.devices.delivered .dev1 = [sentFrame .sample [2], sentFrame .sample [1]])
    ⟨_, rfl, rfl, rfl⟩ fun t _ ⟨hpassed, hdelivered⟩ => ⟨hpassed, hdelivered, ?_⟩
  rw [hpassed, hdelivered]
  decide

end Hack.Dummeth
