import Hack.Xdp.Redirect

/-!
# Redirecting packets to a socket

This file embeds `xdp_def_prog` of `ebpf-xdp/kernel/xdp_redirect_xsk.c` on a little-endian machine.
The program edits a packet for the socket of its queue. When the queue has no socket, the packet
goes to the kernel instead, as it was edited.
-/

namespace Hack.Xdp

open NetBytes

/-- `bpf_redirect_map` on the sockets, which returns the lower bits of the flags when the queue has
none. -/
def bpfRedirectMap (ifRedirect : UInt32 → Bool) (index : UInt32) (flags : XdpAction) : XdpAction :=
  if ifRedirect index then .redirect else flags

/-- The end of the program: the packet is redirected to the socket of its queue. -/
def redirectToSocket (ifRedirect : UInt32 → Bool) (index : UInt32) (packet : List UInt8) :
    Except XdpAction (UInt32 × List UInt8) → XdpAction × List UInt8
  | .error action => (action, packet)
  | .ok (_, packet) => (bpfRedirectMap ifRedirect index .pass, packet)

/-- `xdp_def_prog`, with the fields of the context that it reads. -/
def xdpDefProg (refcnt : ℤ) (ifRedirect : UInt32 → Bool) (fibLookup : FibParams → FibAnswer)
    (ingressIfindex rxQueueIndex : UInt32) (packet : List UInt8) :
    Option (XdpAction × List UInt8) :=
  if refcnt = 0 then some (.pass, packet)
  else if packet.length < 14 then some (.pass, packet)
  else (load16 packet 12).bind fun hProto =>
    if bswap16 hProto ≠ 0x0800 then some (.pass, packet)
    else if packet.length < 14 + 20 then some (.pass, packet)
    else (packet[23]?).bind fun protocol =>
      if protocol = 1 then
        (icmpBranch fibLookup ingressIfindex packet).map
          (redirectToSocket ifRedirect rxQueueIndex packet)
      else if protocol = 6 then
        (transportBranch fibLookup ingressIfindex packet).map
          (redirectToSocket ifRedirect rxQueueIndex packet)
      else if protocol = 17 then
        (transportBranch fibLookup ingressIfindex packet).map
          (redirectToSocket ifRedirect rxQueueIndex packet)
      else some (bpfRedirectMap ifRedirect rxQueueIndex .pass, packet)

/-- The program ends, and a packet that it passes is the packet that has arrived. -/
def PassesUnmodified (refcnt : ℤ) (ifRedirect : UInt32 → Bool)
    (fibLookup : FibParams → FibAnswer) (ingressIfindex rxQueueIndex : UInt32)
    (packet : List UInt8) : Prop :=
  ∃ action packet', xdpDefProg refcnt ifRedirect fibLookup ingressIfindex rxQueueIndex packet =
      some (action, packet') ∧ (action = .pass → packet' = packet)

/-- The answer is no route, or the MAC addresses that the frame has already. -/
def Frame.Keeps (f : Frame) (answer : FibAnswer) : Prop :=
  answer.rc = fibSuccess → answer.dmac = f.hDest ∧ answer.smac = f.hSource

/-- The program is switched off, or the queue has a socket, or the packet is no IPv4 frame of one
of the three protocols, or no route is found for it, or the frame has the addresses that it gets
already. -/
def NothingToEdit (refcnt : ℤ) (ifRedirect : UInt32 → Bool) (fibLookup : FibParams → FibAnswer)
    (ingressIfindex rxQueueIndex : UInt32) (packet : List UInt8) : Prop :=
  refcnt = 0 ∨ ifRedirect rxQueueIndex = true ∨
    ∀ f : Frame, packet = f.bytes → field16 packet 12 = 0x0800 →
      (packet[23]? = some 1 → f.Keeps (fibLookup (f.icmpQuery ingressIfindex)) ∧
        ((fibLookup (f.icmpQuery ingressIfindex)).rc = fibSuccess → f.saddr = f.daddr)) ∧
      (packet[23]? = some 6 ∨ packet[23]? = some 17 →
        f.Keeps (fibLookup (f.transportQuery ingressIfindex)))

variable {refcnt : ℤ} {ifRedirect : UInt32 → Bool} {fibLookup : FibParams → FibAnswer}
  {ingressIfindex rxQueueIndex : UInt32} {packet : List UInt8} {f : Frame} {answer : FibAnswer}

/-- The bytes of a frame determine its fields. -/
theorem Frame.bytes_injective : Function.Injective Frame.bytes := by
  intro f g h
  obtain ⟨hDest, h⟩ := List.append_inj h (by simp)
  obtain ⟨hSource, h⟩ := List.append_inj h (by simp)
  obtain ⟨hProto, h⟩ := List.append_inj h (by simp)
  obtain ⟨hFixed, h⟩ := List.append_inj h (by simp)
  obtain ⟨hSaddr, h⟩ := List.append_inj h (by simp)
  obtain ⟨hDaddr, hRest⟩ := List.append_inj h (by simp)
  cases f
  cases g
  simp only [Frame.mk.injEq]
  exact ⟨List.Vector.eq _ _ hDest, List.Vector.eq _ _ hSource, List.Vector.eq _ _ hProto,
    List.Vector.eq _ _ hFixed, List.Vector.eq _ _ hSaddr, List.Vector.eq _ _ hDaddr, hRest⟩

/-- Packets that are no IPv4 frames are passed, and all packets when the program is switched off. -/
theorem xdpDefProg_other (h : refcnt = 0 ∨ packet.length < 34 ∨ field16 packet 12 ≠ 0x0800) :
    xdpDefProg refcnt ifRedirect fibLookup ingressIfindex rxQueueIndex packet =
      some (.pass, packet) := by
  rw [xdpDefProg]
  by_cases hoff : refcnt = 0
  · exact if_pos hoff
  · rw [if_neg hoff]
    by_cases hshort : packet.length < 14
    · exact if_pos hshort
    · obtain ⟨hProto, hload, hfield⟩ := load16_eq (show 12 + 1 < packet.length by omega)
      rw [if_neg hshort, hload, Option.bind_some]
      split_ifs with hproto hheader
      · rfl
      · rfl
      · have htype : field16 packet 12 = 0x0800 := by
          rw [← hfield, not_not.mp hproto]
          rfl
        rcases h with h | h | h
        · exact absurd h hoff
        · exact absurd h hheader
        · exact absurd htype h

/-- A program that is switched on goes by the protocol of an IPv4 frame. -/
theorem xdpDefProg_frame (hon : refcnt ≠ 0) (htype : field16 f.bytes 12 = 0x0800) {protocol : UInt8}
    (hprotocol : f.bytes[23]? = some protocol) :
    xdpDefProg refcnt ifRedirect fibLookup ingressIfindex rxQueueIndex f.bytes =
      if protocol = 1 then
        (icmpBranch fibLookup ingressIfindex f.bytes).map
          (redirectToSocket ifRedirect rxQueueIndex f.bytes)
      else if protocol = 6 ∨ protocol = 17 then
        (transportBranch fibLookup ingressIfindex f.bytes).map
          (redirectToSocket ifRedirect rxQueueIndex f.bytes)
      else some (bpfRedirectMap ifRedirect rxQueueIndex .pass, f.bytes) := by
  have hlength := f.length_bytes
  obtain ⟨hProto, hload, hfield⟩ := load16_eq (show 12 + 1 < f.bytes.length by omega)
  have hproto : bswap16 hProto = 0x0800 := by
    apply UInt16.toNat_inj.mp
    rw [hfield, htype]
    rfl
  rw [xdpDefProg, if_neg hon, if_neg (by omega), hload, Option.bind_some,
    if_neg (not_not.mpr hproto), if_neg (by omega), hprotocol, Option.bind_some]
  split_ifs <;> simp_all

/-- A branch passes a frame unmodified when its queue has a socket, when there is no route, or when
the frame is not changed by the edits. -/
theorem branch_unmodified_iff {edit : FibAnswer → Frame} :
    (∃ action packet', some (redirectToSocket ifRedirect rxQueueIndex f.bytes
        ((route answer).map fun answer => (answer.ifindex, (edit answer).bytes))) =
        some (action, packet') ∧ (action = .pass → packet' = f.bytes)) ↔
      ifRedirect rxQueueIndex = true ∨ (answer.rc = fibSuccess → edit answer = f) := by
  cases hroute : route answer with
  | error action =>
    have hfail : answer.rc ≠ fibSuccess := fun hsuccess => by
      rw [route_eq_ok_iff.mpr ⟨hsuccess, rfl⟩] at hroute
      cases hroute
    exact iff_of_true ⟨action, f.bytes, rfl, fun _ => rfl⟩ (.inr fun h => absurd h hfail)
  | ok answer' =>
    obtain ⟨hsuccess, rfl⟩ := route_eq_ok_iff.mp hroute
    simp only [Except.map, redirectToSocket, bpfRedirectMap, Option.some.injEq, Prod.mk.injEq]
    constructor
    · rintro ⟨action, packet', ⟨rfl, rfl⟩, hpass⟩
      by_cases hsocket : ifRedirect rxQueueIndex = true
      · exact .inl hsocket
      · exact .inr fun _ => Frame.bytes_injective (hpass (if_neg hsocket))
    · rintro (hsocket | hkeeps)
      · refine ⟨_, _, ⟨rfl, rfl⟩, fun hpass => ?_⟩
        rw [if_pos hsocket] at hpass
        cases hpass
      · exact ⟨_, _, ⟨rfl, rfl⟩, fun _ => congrArg Frame.bytes (hkeeps hsuccess)⟩

/-- When the MAC addresses are those of the frame. -/
theorem Frame.withMacs_eq_iff :
    f.withMacs answer = f ↔ answer.dmac = f.hDest ∧ answer.smac = f.hSource := by
  cases f
  simp [Frame.withMacs]

/-- When the exchanged addresses are also those of the frame. -/
theorem Frame.reflected_withMacs_eq_iff : f.reflected.withMacs answer = f ↔
      (answer.dmac = f.hDest ∧ answer.smac = f.hSource) ∧ f.saddr = f.daddr := by
  cases f
  simp only [Frame.withMacs, Frame.reflected, Frame.mk.injEq]
  tauto

/-- The program passes packets unmodified exactly when it has nothing to edit. -/
theorem passesUnmodified_iff (refcnt : ℤ) (ifRedirect : UInt32 → Bool)
    (fibLookup : FibParams → FibAnswer) (ingressIfindex rxQueueIndex : UInt32)
    (packet : List UInt8) :
    PassesUnmodified refcnt ifRedirect fibLookup ingressIfindex rxQueueIndex packet ↔
      NothingToEdit refcnt ifRedirect fibLookup ingressIfindex rxQueueIndex packet := by
  by_cases hother : refcnt = 0 ∨ packet.length < 34 ∨ field16 packet 12 ≠ 0x0800
  · refine iff_of_true ⟨_, _, xdpDefProg_other hother, fun _ => rfl⟩ ?_
    rcases hother with hoff | hshort | htype
    · exact .inl hoff
    · refine .inr (.inr fun f hf _ => ?_)
      have hlength := f.length_bytes
      rw [← hf] at hlength
      omega
    · exact .inr (.inr fun f _ h => absurd h htype)
  · push Not at hother
    obtain ⟨hon, hlong, htype⟩ := hother
    obtain ⟨f, rfl⟩ := Frame.exists_bytes_eq hlong
    obtain ⟨protocol, hprotocol⟩ := f.exists_protocol
    rw [PassesUnmodified, NothingToEdit, xdpDefProg_frame hon htype hprotocol]
    -- The frame is the only one with these bytes.
    have hframe (P : Frame → Prop) : (∀ g : Frame, f.bytes = g.bytes →
        field16 f.bytes 12 = 0x0800 → P g) ↔ P f :=
      ⟨fun h => h f rfl htype, fun h g hg _ => Frame.bytes_injective hg ▸ h⟩
    rw [hframe, hprotocol]
    simp only [hon, false_or, Option.some.injEq]
    split_ifs with hicmp htransport
    · subst hicmp
      have hnot : ¬((1 : UInt8) = 6 ∨ (1 : UInt8) = 17) := by decide
      rw [icmpBranch_bytes, Option.map_some, branch_unmodified_iff, Frame.reflected_withMacs_eq_iff]
      simp only [true_imp_iff, hnot, false_imp_iff, and_true, Frame.Keeps, imp_and]
    · rw [transportBranch_bytes, Option.map_some, branch_unmodified_iff, Frame.withMacs_eq_iff]
      simp only [hicmp, htransport, true_imp_iff, false_imp_iff, true_and, Frame.Keeps]
    · refine iff_of_true ⟨_, _, rfl, fun _ => rfl⟩ (.inr ⟨?_, ?_⟩)
      · exact fun h => absurd h hicmp
      · exact fun h => absurd h htransport

/-- A ping to a queue without a socket is passed with other MAC addresses and with its IPv4
addresses exchanged. -/
theorem ping_passed_edited : xdpDefProg 1 (fun _ => false) routed 1 0 ping =
      some (.pass, List.replicate 6 2 ++ List.replicate 6 4 ++ [0x08, 0x00, 0x45, 0x00, 0x00, 0x14,
        0x00, 0x00, 0x00, 0x00, 0x40, 0x01, 0x66, 0xe7, 10, 0, 0, 2, 10, 0, 0, 1]) ∧
    ¬PassesUnmodified 1 (fun _ => false) routed 1 0 ping := by
  have hrun : xdpDefProg 1 (fun _ => false) routed 1 0 ping =
      some (.pass, List.replicate 6 2 ++ List.replicate 6 4 ++ [0x08, 0x00, 0x45, 0x00, 0x00, 0x14,
        0x00, 0x00, 0x00, 0x00, 0x40, 0x01, 0x66, 0xe7, 10, 0, 0, 2, 10, 0, 0, 1]) := by decide
  refine ⟨hrun, ?_⟩
  rintro ⟨action, packet', hrun', hpass⟩
  rw [hrun] at hrun'
  cases hrun'
  exact absurd (hpass rfl) (by decide)

end Hack.Xdp
