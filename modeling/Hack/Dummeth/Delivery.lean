import Hack.Dummeth.RxOrder
import Hack.InternetChecksum

/-!
# What the twin device receives

A frame is padded by `dummeth_xmit`, changed in place by `dummeth_hw_tx`, copied into a packet,
queued, and copied again into a buffer for the network stack. In any interleaving the frames
that a device hands to the stack are frames that were passed to its twin, each at most once,
with the third octets of both addresses flipped and a new header checksum.
-/

namespace Hack.Dummeth

open InternetChecksum

/-! ### The rewritten frame -/

/-- The length of the IPv4 header of a frame, in words of 32 bits. -/
def ihl (frame : List UInt8) : ℕ := (frame.getD 14 0).toNat % 16

/-- The IPv4 header of a frame. -/
def ipHeader (frame : List UInt8) : List UInt8 := (frame.drop 14).take (ihl frame * 4)

/-- The two addresses in the IPv4 header of a frame. -/
def ipAddresses (frame : List UInt8) : List UInt8 := (frame.drop 26).take 8

/-- A frame that covers the Ethernet header and an IPv4 header of a valid length. -/
structure CoversHeader (frame : List UInt8) : Prop where
  ihl_ge : 5 ≤ ihl frame
  length_ge : 14 + ihl frame * 4 ≤ frame.length

/-- A frame is received with bit 0 of the third octet of both addresses flipped and with a
header checksum that is right. -/
structure Rewritten (frame received : List UInt8) : Prop where
  length_eq : received.length = frame.length
  bytes : ∀ i, i ≠ 24 → i ≠ 25 → i ≠ 28 → i ≠ 32 → received[i]? = frame[i]?
  source : received[28]? = frame[28]?.map (· ^^^ 1)
  destination : received[32]? = frame[32]?.map (· ^^^ 1)
  check : onesSum (ipHeader received) = 0xffff

variable {cfg : Config} {frame received : List UInt8} {i : ℕ} {front back : List UInt8}

/-- A frame with its addresses flipped and without a checksum. -/
def flipped (frame : List UInt8) : List UInt8 :=
  (((frame.modify 28 (· ^^^ 1)).modify 32 (· ^^^ 1)).set 24 0).set 25 0

/-- The checksum is computed of the flipped frame and stored in it. -/
theorem rewriteFrame_eq (cfg : Config) (frame : List UInt8) : rewriteFrame cfg frame =
      ((flipped frame).set 24
        (cfg.ipFastCsum ((flipped frame).drop 14) (ihl (flipped frame))).1).set 25
        (cfg.ipFastCsum ((flipped frame).drop 14) (ihl (flipped frame))).2 := rfl

/-- The flipped frame outside of the checksum. -/
theorem getElem?_flipped (h24 : i ≠ 24) (h25 : i ≠ 25) :
    (flipped frame)[i]? = (if i = 28 ∨ i = 32 then frame[i]?.map (· ^^^ 1) else frame[i]?) := by
  rw [flipped, List.getElem?_set_ne (Ne.symm h25), List.getElem?_set_ne (Ne.symm h24),
    List.getElem?_modify, List.getElem?_modify]
  by_cases h28 : i = 28
  · subst h28
    simp
  · by_cases h32 : i = 32
    · subst h32
      simp
    · simp [h28, h32, Ne.symm h28, Ne.symm h32]

/-- Flipping keeps the length. -/
theorem length_flipped (frame : List UInt8) : (flipped frame).length = frame.length := by
  simp [flipped]

/-- The bytes of a frame around the checksum field. -/
theorem exists_append_checksum (h : 26 ≤ frame.length) :
    ∃ front a b back, frame = front ++ a :: b :: back ∧ front.length = 24 := by
  refine ⟨frame.take 24, frame[24], frame[25], frame.drop 26, ?_, ?_⟩
  · rw [← List.drop_eq_getElem_cons, ← List.drop_eq_getElem_cons, List.take_append_drop]
  · rw [List.length_take]
    omega

/-- Storing two bytes in the checksum field. -/
theorem set_set_append (hfront : front.length = 24) (a b a' b' : UInt8) :
    ((front ++ a :: b :: back).set 24 a').set 25 b' = front ++ a' :: b' :: back := by
  rw [List.set_append_right _ _ (by omega), List.set_append_right _ _ (by omega), hfront]
  rfl

/-- The header around the checksum field. -/
theorem ipHeader_append (hfront : front.length = 24) (a b : UInt8)
    (hihl : 5 ≤ ihl (front ++ a :: b :: back)) :
    ipHeader (front ++ a :: b :: back) = front.drop 14 ++
      a :: b :: back.take (ihl (front ++ a :: b :: back) * 4 - 12) := by
  have hdrop : (front.drop 14).length = 10 := by
    rw [List.length_drop]
    omega
  rw [ipHeader, List.drop_append_of_le_length (by omega), List.take_append, hdrop,
    List.take_of_length_le (by omega)]
  generalize ihl (front ++ a :: b :: back) = n at hihl ⊢
  have htake : n * 4 - 10 = n * 4 - 12 + 1 + 1 := by omega
  rw [htake, List.take_succ_cons, List.take_succ_cons]

/-- The length of the header is not in the checksum field. -/
theorem ihl_append (hfront : front.length = 24) (a b : UInt8) :
    ihl (front ++ a :: b :: back) = (front.getD 14 0).toNat % 16 := by
  rw [ihl, List.getD_eq_getElem?_getD, List.getElem?_append_left (by omega),
    ← List.getD_eq_getElem?_getD]

/-- Flipping the addresses does not change the length of the header. -/
theorem ihl_flipped (frame : List UInt8) : ihl (flipped frame) = ihl frame := by
  rw [ihl, ihl, List.getD_eq_getElem?_getD, List.getD_eq_getElem?_getD,
    getElem?_flipped (by decide) (by decide), if_neg (by decide)]

/-- The rewritten frame outside of the checksum. -/
theorem getElem?_rewriteFrame (h24 : i ≠ 24) (h25 : i ≠ 25) : (rewriteFrame cfg frame)[i]? =
      (if i = 28 ∨ i = 32 then frame[i]?.map (· ^^^ 1) else frame[i]?) := by
  rw [rewriteFrame_eq, List.getElem?_set_ne (Ne.symm h25), List.getElem?_set_ne (Ne.symm h24),
    getElem?_flipped h24 h25]

/-- Rewriting keeps the length. -/
theorem length_rewriteFrame (cfg : Config) (frame : List UInt8) :
    (rewriteFrame cfg frame).length = frame.length := by
  rw [rewriteFrame_eq, List.length_set, List.length_set, length_flipped]

/-- The rewritten frame has the right checksum. -/
theorem onesSum_rewriteFrame (hcsum : Computes cfg.ipFastCsum) (h : CoversHeader frame) :
    onesSum (ipHeader (rewriteFrame cfg frame)) = 0xffff := by
  obtain ⟨hihl, hlength⟩ := h
  rw [← ihl_flipped] at hihl hlength
  rw [← length_flipped] at hlength
  have hcheck := hcsum ((flipped frame).drop 14) (ihl (flipped frame)) hihl
    (by rw [List.length_drop]; omega)
  rw [rewriteFrame_eq]
  -- The flipped frame has zeros in the checksum field, which the checksum replaces.
  obtain ⟨front, back, hflipped, hfront⟩ : ∃ front back, flipped frame = front ++ 0 :: 0 :: back ∧
      front.length = 24 := by
    have hlength' : 26 ≤ ((frame.modify 28 (· ^^^ 1)).modify 32 (· ^^^ 1)).length := by
      rw [length_flipped] at hlength
      rw [List.length_modify, List.length_modify]
      omega
    obtain ⟨front, a, b, back, hframe, hfront⟩ := exists_append_checksum hlength'
    exact ⟨front, back, by rw [flipped, hframe, set_set_append hfront], hfront⟩
  generalize cfg.ipFastCsum ((flipped frame).drop 14) (ihl (flipped frame)) = check at hcheck ⊢
  rw [hflipped] at hcheck hihl ⊢
  have hihl' : ihl (front ++ check.1 :: check.2 :: back) = ihl (front ++ 0 :: 0 :: back) := by
    rw [ihl_append hfront, ihl_append hfront]
  rw [set_set_append hfront, ipHeader_append hfront _ _ (hihl' ▸ hihl), hihl']
  refine onesSum_eq_of_checksum ?_ ?_
  · rw [List.length_drop, hfront]
  · rw [hcheck, ← ipHeader_append hfront _ _ hihl, ipHeader]

/-- A frame that covers its header is received rewritten. -/
theorem rewritten_rewriteFrame (hcsum : Computes cfg.ipFastCsum) (h : CoversHeader frame) :
    Rewritten frame (rewriteFrame cfg frame) where
  length_eq := length_rewriteFrame cfg frame
  bytes i h24 h25 h28 h32 := by
    rw [getElem?_rewriteFrame h24 h25, if_neg (by omega)]
  source := by rw [getElem?_rewriteFrame (by decide) (by decide), if_pos (by decide)]
  destination := by rw [getElem?_rewriteFrame (by decide) (by decide), if_pos (by decide)]
  check := onesSum_rewriteFrame hcsum h

/-- A short frame is padded to 60 bytes. -/
theorem length_padFrame (frame : List UInt8) : (padFrame frame).length = max 60 frame.length := by
  rw [padFrame, List.length_append, List.length_replicate]
  omega

/-- A long frame is not padded. -/
theorem padFrame_eq_self (h : 60 ≤ frame.length) : padFrame frame = frame := by
  rw [padFrame, Nat.sub_eq_zero_of_le h, List.replicate_zero, List.append_nil]

/-- Sending a received frame back restores the addresses. -/
theorem ipAddresses_sentFrame_sentFrame (cfg : Config) (frame : List UInt8) :
    ipAddresses (sentFrame cfg (sentFrame cfg frame)) = ipAddresses (padFrame frame) := by
  have hlong : 60 ≤ (sentFrame cfg frame).length := by
    rw [sentFrame, length_rewriteFrame, length_padFrame]
    exact Nat.le_max_left 60 frame.length
  have hback : sentFrame cfg (sentFrame cfg frame) =
      rewriteFrame cfg (rewriteFrame cfg (padFrame frame)) := by
    rw [sentFrame, padFrame_eq_self hlong, sentFrame]
  rw [hback, ipAddresses, ipAddresses]
  refine List.ext_getElem? fun i => ?_
  rw [List.getElem?_take, List.getElem?_take]
  split_ifs with hi
  · rw [List.getElem?_drop, List.getElem?_drop, getElem?_rewriteFrame (by omega) (by omega),
      getElem?_rewriteFrame (by omega) (by omega)]
    split_ifs
    · cases (padFrame frame)[26 + i]? with
      | none => rfl
      | some b =>
        -- A bit of the address is flipped twice.
        rw [Option.map_some, Option.map_some, UInt8.xor_assoc, UInt8.xor_self, UInt8.xor_zero]
    · rfl
  · rfl

/-! ### The frames on their way -/

/-- `ETH_DATA_LEN`, the size of the data of a packet. -/
def ethDataLen : ℕ := 1500

/-- What the kernel calls: any operation of the driver at any time, a transmission with a
frame that fits into a packet, and `dummeth_hw_tx` only from `dummeth_xmit`. -/
def FittingFrames (_ : System) : Event → Prop
  | .call (.xmit _ _ frame) => frame.length ≤ ethDataLen
  | .call (.hwTx _ _) => False
  | _ => True

variable {s s' : Devices} {choice : Choice} {pc : Pc} {pcs rest : List Pc} {d : DevId}
  {sent : List (List UInt8)} {t : System} {event : Event}

/-- Every transition passes the frames in transit on, or loses one. -/
theorem Transition.inTransit_subperm {l : List Addr} (htrans : Transition cfg s choice pc s' pcs)
    (howned : OwnedBy s (pc :: rest)) (hqueue : s.RxQueue d.twin l) :
    ∃ l', s'.RxQueue d.twin l' ∧
      (s'.inTransit cfg (pcs ++ rest) d l').Subperm (s.inTransit cfg (pc :: rest) d l) := by
  have hlookup := htrans.lookup_rxQueue howned hqueue
  have hpending := (htrans.pending_sublist d).subperm
  obtain ⟨hheldRest, hpendingRest⟩ := htrans.frames_rest howned d.twin d
  have hhanded (frame : List UInt8) :
      (if choice.skbAlloc then [frame] else []).Subperm [frame] := by
    have hsub := (handed_sublist frame choice.skbAlloc []).subperm
    rwa [List.append_nil] at hsub
  simp only [Devices.inTransit, List.flatMap_append, List.flatMap_cons, hheldRest, hpendingRest,
    List.subperm_iff_count, List.count_append] at hpending ⊢
  cases htrans.rxEffect d.twin with
  | quiet hside hdelivered _ hpc hpcs =>
    have hheld : pc.heldFrames s d.twin = [] := Pc.heldFrames_of_holdsRx hpc
    have hheld' : pcs.flatMap (Pc.heldFrames s' d.twin) = [] :=
      List.flatMap_eq_nil_iff.mpr fun pc' hpc' => Pc.heldFrames_of_holdsRx (hpcs pc' hpc')
    refine ⟨l, hqueue.keep hlookup (Priv.rxSide_eq_iff.mp hside).1, fun x => ?_⟩
    rw [hdelivered, hheld, hheld', Devices.flatMap_frameAt_eq hlookup]
    have := hpending x
    omega
  | @enqueue e len a pkt htwin hpkt hpkt' hhead _ hdelivered =>
    obtain rfl : e = d := by rw [← e.twin_twin, htwin, d.twin_twin]
    refine ⟨a :: l, hqueue.push hlookup hpkt' rfl hhead, fun x => ?_⟩
    have hframe : s'.frameAt a = s.frameAt a := by
      rw [Devices.frameAt_eq hpkt, Devices.frameAt_eq hpkt']
      rfl
    -- The frame moves from the hands of the transmission to the queue.
    simp only [hdelivered, Pc.heldFrames, Pc.pendingFrames, List.flatMap_cons, List.flatMap_nil,
      List.count_nil, hframe, Devices.flatMap_frameAt_eq hlookup, List.count_append, if_true]
    omega
  | @dequeue budget npackets a pkt hhead hpkt hnext _ hdelivered =>
    obtain ⟨l', rfl, hqueue'⟩ := hqueue.pop hlookup hhead hpkt hnext
    refine ⟨l', hqueue', fun x => ?_⟩
    rw [← Devices.flatMap_frameAt_eq hlookup]
    -- The frame moves from the queue to the hands of the poll.
    simp only [hdelivered, Pc.heldFrames, Pc.pendingFrames, List.flatMap_cons, List.flatMap_nil,
      List.count_nil, List.count_append, if_true]
    omega
  | @count budget npackets a pkt hpkt hhead _ hdelivered =>
    refine ⟨l, hqueue.keep hlookup hhead, fun x => ?_⟩
    have := List.subperm_iff_count.mp (hhanded pkt.frame) x
    simp only [hdelivered, Pc.heldFrames, Pc.pendingFrames, List.flatMap_cons, List.flatMap_nil,
      List.count_nil, Devices.flatMap_frameAt_eq hlookup, Devices.frameAt_eq hpkt,
      List.count_append, if_true]
    omega
  | @receive a pkt hhead hpkt hnext _ hdelivered =>
    obtain ⟨l', rfl, hqueue'⟩ := hqueue.pop hlookup hhead hpkt hnext
    have hframes := Devices.flatMap_frameAt_eq fun b hb => hlookup b (List.mem_cons_of_mem a hb)
    refine ⟨l', hqueue', fun x => ?_⟩
    have := List.subperm_iff_count.mp (hhanded pkt.frame) x
    simp only [hdelivered, Pc.heldFrames, Pc.pendingFrames, List.flatMap_cons, List.flatMap_nil,
      List.count_nil, hframes, Devices.frameAt_eq hpkt, List.count_append]
    omega

/-- The delivered frames and those in transit are frames that were sent. -/
def FromSent (cfg : Config) (s : Devices) (pcs : List Pc) (d : DevId)
    (sent : List (List UInt8)) : Prop :=
  ∃ l, s.RxQueue d.twin l ∧ (s.inTransit cfg pcs d l).Subperm sent

/-- The order of the program counters does not matter. -/
theorem FromSent.perm (h : FromSent cfg s pcs d sent) (hperm : pcs.Perm rest) :
    FromSent cfg s rest d sent := by
  obtain ⟨l, hqueue, hsub⟩ := h
  have hheld := hperm.flatMap_right (Pc.heldFrames s d.twin)
  have hpending := hperm.flatMap_right (Pc.pendingFrames cfg s d)
  have htransit : (s.inTransit cfg pcs d l).Perm (s.inTransit cfg rest d l) :=
    ((hheld.append_left _).append_right _).append hpending
  exact ⟨l, hqueue, htransit.symm.subperm.trans hsub⟩

/-- A call sends the frame that is passed with it. -/
theorem FromSent.call {op : Op} (h : FromSent cfg t.devices t.pcs d sent)
    (hcalls : FittingFrames t (.call op)) : FromSent cfg t.devices (op.entry :: t.pcs) d
      (sent ++ (passedFrames d t (.call op)).map (sentFrame cfg)) := by
  obtain ⟨l, hqueue, hsub⟩ := h
  have hnot : ∀ e buf, op ≠ .hwTx e buf := by
    rintro e buf rfl
    exact hcalls
  obtain ⟨hheld, hpending⟩ := op.frames_entry cfg t d hnot
  refine ⟨l, hqueue, ?_⟩
  simp only [Devices.inTransit, List.flatMap_cons, hheld, hpending, List.nil_append,
    List.subperm_iff_count, List.count_append] at hsub ⊢
  intro x
  have := hsub x
  omega

/-- Every event keeps the frames in transit among those that were sent. -/
theorem FromSent.next {t' : System} {passed : List (List UInt8)}
    (h : FromSent cfg t.devices t.pcs d (passed.map (sentFrame cfg))) (howned : t.OwnedOnce)
    (hcalls : FittingFrames t event) (hnext : t.next cfg event = some t') :
    FromSent cfg t'.devices t'.pcs d ((passed ++ passedFrames d t event).map (sentFrame cfg)) := by
  cases System.move_of_next hnext with
  | @call op hdevices hpcs =>
    rw [hdevices, List.map_append]
    exact (h.call hcalls).perm hpcs.symm
  | @run i choice pc stack rest pcs hget hbefore htrans hafter =>
    have hnone : passedFrames d t (.run i choice) = [] := rfl
    rw [hnone, List.append_nil]
    have howned' := (System.ownedOnce_iff.mp howned).perm hbefore
    obtain ⟨l, hqueue, hsub⟩ := h.perm hbefore
    obtain ⟨l', hqueue', hsub'⟩ := htrans.inTransit_subperm howned' hqueue
    have hafter' : FromSent cfg t'.devices (pcs ++ rest) d (passed.map (sentFrame cfg)) :=
      ⟨l', hqueue', hsub'.trans hsub⟩
    exact hafter'.perm hafter.symm

/-- In every run the delivered frames are frames that were sent, each at most once. -/
theorem delivered_subperm_of_sent (d : DevId) {t : System × List (List UInt8)}
    (hreach : ((driverMachine cfg (Devices.Initialised cfg)).observed
      (passedFrames d)).ReachableUnder (fun t event => FittingFrames t.1 event) t) :
    (t.1.devices.delivered d.twin).Subperm (t.2.map (sentFrame cfg)) := by
  have hinv : t.1.OwnedOnce ∧ FromSent cfg t.1.devices t.1.pcs d (t.2.map (sentFrame cfg)) := by
    refine hreach.observed_invariant (fun t log => t.OwnedOnce ∧
      FromSent cfg t.devices t.pcs d (log.map (sentFrame cfg))) ?_ ?_
    · rintro ⟨s, threads⟩ ⟨hstart, hthreads⟩
      cases hthreads
      obtain ⟨hqueue, htransit⟩ := hstart.inTransit d
      exact ⟨⟨hstart.owned, by simp⟩, [], hqueue, htransit.symm ▸ List.nil_subperm⟩
    · rintro t log event t' ⟨howned, h⟩ hcalls hnext
      exact ⟨howned.next hnext, h.next howned hcalls hnext⟩
  obtain ⟨l, -, hsub⟩ := hinv.2
  have hdelivered := t.1.devices.delivered_sublist_inTransit cfg t.1.pcs d l
  exact hdelivered.subperm.trans hsub

/-- A list that is part of an image, up to order, is an image of a part. -/
theorem exists_forall₂_of_subperm_map {α β : Type} {f : α → β} {as : List α} {bs : List β}
    (h : bs.Subperm (as.map f)) :
    ∃ as', as'.Subperm as ∧ List.Forall₂ (fun a b => b = f a) as' bs := by
  obtain ⟨bs', hperm, hsub⟩ := h
  obtain ⟨as', hsub', rfl⟩ := List.sublist_map_iff.mp hsub
  have himage : List.Forall₂ (fun a b => b = f a) as' (as'.map f) := by
    rw [List.forall₂_map_right_iff, List.forall₂_same]
    exact fun _ _ => rfl
  have hcomp : Relation.Comp (List.Forall₂ fun a b => b = f a) List.Perm as' bs :=
    ⟨_, himage, hperm⟩
  rw [List.forall₂_comp_perm_eq_perm_comp_forall₂] at hcomp
  obtain ⟨as'', hperm', himage'⟩ := hcomp
  exact ⟨as'', hperm'.symm.subperm.trans hsub'.subperm, himage'⟩

/-- **What the twin device receives.** In any interleaving, with frames that fit into a packet
and a checksum function that computes the Internet checksum, the frames that a device hands
to the network stack belong to different frames passed to `dummeth_xmit` of its twin, each
being what the twin computes from its frame. If the padded frame covers its headers, it is
received rewritten, and sending it back restores the addresses. -/
theorem twin_receives_rewritten (hcsum : Computes cfg.ipFastCsum) (d : DevId)
    {t : System × List (List UInt8)}
    (hreach : ((driverMachine cfg (Devices.Initialised cfg)).observed
      (passedFrames d)).ReachableUnder (fun t event => FittingFrames t.1 event) t) :
    ∃ frames, frames.Subperm t.2 ∧
      List.Forall₂ (fun frame received => received = sentFrame cfg frame ∧
        (CoversHeader (padFrame frame) → Rewritten (padFrame frame) received ∧
          ipAddresses (sentFrame cfg received) = ipAddresses (padFrame frame)))
        frames (t.1.devices.delivered d.twin) := by
  obtain ⟨frames, hsub, himage⟩ :=
    exists_forall₂_of_subperm_map (delivered_subperm_of_sent d hreach)
  refine ⟨frames, hsub, himage.imp ?_⟩
  rintro frame received rfl
  refine ⟨rfl, fun hcovers => ?_⟩
  exact ⟨rewritten_rewriteFrame hcsum hcovers, ipAddresses_sentFrame_sentFrame cfg frame⟩

/-- The sample with a function that computes the Internet checksum. -/
def Config.sampleChecksum : Config := { Config.sample with ipFastCsum := headerChecksum }

/-- A short frame with the first byte of an IPv4 header of 20 bytes is transmitted and
polled. -/
def Event.polledOnce : List Event :=
  Event.call (.xmit .dev0 7 (List.replicate 14 0 ++ [0x45])) ::
    List.replicate 13 (Event.run 0 {}) ++
  Event.call (.poll .dev1 2) :: List.replicate 7 (Event.run 1 {})

/-- A check for calls with frames that fit into a packet. -/
def fittingFrames : Event → Bool
  | .call (.xmit _ _ frame) => frame.length ≤ ethDataLen
  | .call (.hwTx _ _) => false
  | _ => true

/-- Calls that pass the check have frames that fit into a packet. -/
theorem fittingFrames_of_check (h : fittingFrames event = true) : FittingFrames t event := by
  cases event with
  | call op => cases op <;> simp_all [fittingFrames, FittingFrames]
  | run i choice => trivial

/-- The frame covers its headers when it is padded, and is delivered. -/
theorem twin_receives_rewritten_polledOnce :
    ∃ t, ((driverMachine .sampleChecksum (Devices.Initialised .sampleChecksum)).observed
        (passedFrames .dev0)).ReachableUnder (fun t event => FittingFrames t.1 event) t ∧
      t.2 = [List.replicate 14 0 ++ [0x45]] ∧ (t.1.devices.delivered .dev1).length = 1 ∧
      CoversHeader (padFrame (List.replicate 14 0 ++ [0x45])) ∧
      ∃ frames, frames.Subperm t.2 ∧
        List.Forall₂ (fun frame received => received = sentFrame .sampleChecksum frame ∧
          (CoversHeader (padFrame frame) → Rewritten (padFrame frame) received ∧
            ipAddresses (sentFrame .sampleChecksum received) = ipAddresses (padFrame frame)))
          frames (t.1.devices.delivered .dev1) := by
  have hstart : Devices.sample.Initialised .sampleChecksum := ⟨sampleKmalloc, rfl⟩
  have hcsum : Computes Config.sampleChecksum.ipFastCsum := computes_headerChecksum
  refine Machine.exists_reachableUnder (s := (⟨.sample, []⟩, [])) ⟨⟨hstart, rfl⟩, rfl⟩
    (fun _ event => fittingFrames event) (fun _ _ => fittingFrames_of_check) Event.polledOnce
    (fun t => t.2 = [List.replicate 14 0 ++ [0x45]] ∧ (t.1.devices.delivered .dev1).length = 1)
    ⟨_, rfl, rfl, rfl⟩ fun t hreach ⟨hpassed, hlength⟩ => ?_
  exact ⟨hpassed, hlength, ⟨by decide, by decide⟩, twin_receives_rewritten hcsum .dev0 hreach⟩

end Hack.Dummeth
