import Mathlib.Data.Vector.Basic
import Hack.InternetChecksum
import Hack.NetBytes

/-!
# Redirecting packets to a device

This file embeds `xdp_sock2_prog` of `ebpf-xdp/kernel/xdp_redirect_dev.c` on a little-endian
machine, and the parts that it has in common with `xdp_def_prog` of `xdp_redirect_xsk.c`. A packet
is the list of its bytes, an access outside of it has no result, and an address is the four bytes
as they stand in memory. The answers of the route lookup are arbitrary.
-/

namespace Hack.Xdp

open NetBytes InternetChecksum

/-- `enum xdp_action`. -/
inductive XdpAction
  | aborted
  | drop
  | pass
  | tx
  | redirect
deriving DecidableEq

/-- The fields of `struct bpf_fib_lookup` that are set before a lookup. -/
structure FibParams where
  family : UInt8
  ipv4Src : List UInt8
  ipv4Dst : List UInt8
  ifindex : UInt32

/-- What `bpf_fib_lookup` returns, and what it leaves in the struct. -/
structure FibAnswer where
  rc : ℤ
  ifindex : UInt32
  dmac : List.Vector UInt8 6
  smac : List.Vector UInt8 6

/-- `AF_INET`. -/
def afInet : UInt8 := 2

/-- `BPF_FIB_LKUP_RET_SUCCESS`. -/
def fibSuccess : ℤ := 0

/-- `BPF_FIB_LKUP_RET_NO_NEIGH`. -/
def fibNoNeigh : ℤ := 7

/-- `bpf_redirect`, which fails when flags are given. -/
def bpfRedirect (_ifindex : UInt32) (flags : ℕ) : XdpAction :=
  if flags = 0 then .redirect else .aborted

/-- The tests of a route: the action that ends the program, or the answer. -/
def route (answer : FibAnswer) : Except XdpAction FibAnswer :=
  if answer.rc ≠ fibSuccess ∧ answer.rc ≠ fibNoNeigh then .error .drop
  else if answer.rc = fibNoNeigh then .error .pass
  else .ok answer

/-- The two MAC addresses are copied into the packet. -/
def writeMacs (packet : List UInt8) (answer : FibAnswer) : Option (List UInt8) :=
  (storeBytes packet 0 answer.dmac.toList).bind fun packet =>
    storeBytes packet 6 answer.smac.toList

/-- The branch for ICMP, up to the redirection: the action that ends the program, or the interface
and the packet. -/
def icmpBranch (fibLookup : FibParams → FibAnswer) (ingressIfindex : UInt32)
    (packet : List UInt8) : Option (Except XdpAction (UInt32 × List UInt8)) := do
  let daddr ← loadBytes packet 30 4
  let saddr ← loadBytes packet 26 4
  match route (fibLookup ⟨afInet, daddr, saddr, ingressIfindex⟩) with
  | .error action => some (.error action)
  | .ok answer =>
    let packet ← storeBytes packet 30 saddr
    let packet ← storeBytes packet 26 daddr
    let packet ← writeMacs packet answer
    some (.ok (answer.ifindex, packet))

/-- The branches for TCP and UDP, from the route lookup up to the redirection. -/
def transportBranch (fibLookup : FibParams → FibAnswer) (ingressIfindex : UInt32)
    (packet : List UInt8) : Option (Except XdpAction (UInt32 × List UInt8)) := do
  let saddr ← loadBytes packet 26 4
  let daddr ← loadBytes packet 30 4
  match route (fibLookup ⟨afInet, saddr, daddr, ingressIfindex⟩) with
  | .error action => some (.error action)
  | .ok answer =>
    let packet ← writeMacs packet answer
    some (.ok (answer.ifindex, packet))

/-- The end of a branch: the packet is redirected to the interface. -/
def redirectTo (packet : List UInt8) :
    Except XdpAction (UInt32 × List UInt8) → XdpAction × List UInt8
  | .error action => (action, packet)
  | .ok (ifindex, packet) => (bpfRedirect ifindex 0, packet)

/-- `xdp_sock2_prog`. -/
def xdpSock2Prog (fibLookup : FibParams → FibAnswer) (ingressIfindex : UInt32)
    (packet : List UInt8) : Option (XdpAction × List UInt8) :=
  if packet.length < 14 then some (.pass, packet)
  else (load16 packet 12).bind fun hProto =>
    if hProto ≠ 0x08 then some (.pass, packet)
    else if packet.length < 14 + 20 then some (.pass, packet)
    else (packet[23]?).bind fun protocol =>
      if protocol = 1 then
        (icmpBranch fibLookup ingressIfindex packet).map (redirectTo packet)
      else if protocol = 6 then
        if packet.length < 14 + 20 + 20 then some (.pass, packet)
        else (transportBranch fibLookup ingressIfindex packet).map (redirectTo packet)
      else if protocol = 17 then
        if packet.length < 14 + 20 + 8 then some (.pass, packet)
        else (transportBranch fibLookup ingressIfindex packet).map (redirectTo packet)
      else some (.pass, packet)

/-! ### Frames and their fields -/

/-- A frame with the fields that the programs write, and what is between them. -/
structure Frame where
  hDest : List.Vector UInt8 6
  hSource : List.Vector UInt8 6
  hProto : List.Vector UInt8 2
  ipFixed : List.Vector UInt8 12
  saddr : List.Vector UInt8 4
  daddr : List.Vector UInt8 4
  rest : List UInt8

namespace Frame

/-- The bytes of a frame. -/
def bytes (f : Frame) : List UInt8 :=
  f.hDest.toList ++ (f.hSource.toList ++ (f.hProto.toList ++ (f.ipFixed.toList ++
    (f.saddr.toList ++ (f.daddr.toList ++ f.rest)))))

/-- The frame with other MAC addresses. -/
def withMacs (f : Frame) (answer : FibAnswer) : Frame :=
  { f with hDest := answer.dmac, hSource := answer.smac }

/-- The frame with its IPv4 addresses exchanged. -/
def reflected (f : Frame) : Frame := { f with saddr := f.daddr, daddr := f.saddr }

/-- A packet that is long enough for the IPv4 header is a frame. -/
theorem exists_bytes_eq {packet : List UInt8} (h : 34 ≤ packet.length) :
    ∃ f : Frame, f.bytes = packet := by
  have hfield {i n : ℕ} (hin : i + n ≤ packet.length) : ((packet.drop i).take n).length = n := by
    rw [List.length_take_of_le]
    rw [List.length_drop]
    omega
  have hjoin (i n : ℕ) : (packet.drop i).take n ++ packet.drop (i + n) = packet.drop i := by
    rw [← List.drop_drop, List.take_append_drop]
  refine ⟨⟨⟨_, hfield (i := 0) (by omega)⟩, ⟨_, hfield (i := 6) (by omega)⟩,
    ⟨_, hfield (i := 12) (by omega)⟩, ⟨_, hfield (i := 14) (by omega)⟩,
    ⟨_, hfield (i := 26) (by omega)⟩, ⟨_, hfield (i := 30) (by omega)⟩, packet.drop 34⟩, ?_⟩
  simp only [bytes, List.Vector.toList_mk]
  rw [hjoin 30 4, hjoin 26 4, hjoin 14 12, hjoin 12 2, hjoin 6 6, hjoin 0 6, List.drop_zero]

variable (f : Frame)

theorem length_bytes : f.bytes.length = 34 + f.rest.length := by
  simp only [bytes, List.length_append, List.Vector.toList_length]
  omega

/-- A frame has a protocol. -/
theorem exists_protocol : ∃ protocol, f.bytes[23]? = some protocol := by
  have hlength := f.length_bytes
  exact ⟨_, List.getElem?_eq_getElem (by omega)⟩

/-- The bytes before the addresses. -/
def beforeSaddr : List UInt8 :=
  f.hDest.toList ++ (f.hSource.toList ++ (f.hProto.toList ++ f.ipFixed.toList))

theorem length_beforeSaddr : f.beforeSaddr.length = 26 := by simp [beforeSaddr]

theorem bytes_eq_saddr :
    f.bytes = f.beforeSaddr ++ (f.saddr.toList ++ (f.daddr.toList ++ f.rest)) := by
  simp only [bytes, beforeSaddr, List.append_assoc]

theorem bytes_eq_daddr :
    f.bytes = (f.beforeSaddr ++ f.saddr.toList) ++ (f.daddr.toList ++ f.rest) := by
  simp only [bytes, beforeSaddr, List.append_assoc]

theorem length_beforeDaddr : (f.beforeSaddr ++ f.saddr.toList).length = 30 := by
  simp [length_beforeSaddr]

theorem loadBytes_saddr : loadBytes f.bytes 26 4 = some f.saddr.toList := by
  rw [bytes_eq_saddr, loadBytes_append f.length_beforeSaddr f.saddr.toList_length]

theorem loadBytes_daddr : loadBytes f.bytes 30 4 = some f.daddr.toList := by
  rw [bytes_eq_daddr, loadBytes_append f.length_beforeDaddr f.daddr.toList_length]

theorem storeBytes_saddr (addr : List.Vector UInt8 4) :
    storeBytes f.bytes 26 addr.toList = some { f with saddr := addr }.bytes := by
  rw [bytes_eq_saddr, storeBytes_append f.length_beforeSaddr (by simp), bytes_eq_saddr]
  rfl

theorem storeBytes_daddr (addr : List.Vector UInt8 4) :
    storeBytes f.bytes 30 addr.toList = some { f with daddr := addr }.bytes := by
  rw [bytes_eq_daddr, storeBytes_append f.length_beforeDaddr (by simp), bytes_eq_daddr]
  rfl

/-- Both MAC addresses are replaced. -/
theorem writeMacs_bytes (answer : FibAnswer) :
    writeMacs f.bytes answer = some (f.withMacs answer).bytes := by
  have hdest : storeBytes f.bytes 0 answer.dmac.toList =
      some { f with hDest := answer.dmac }.bytes := @storeBytes_append 0 [] _ _ rfl (by simp) _
  have hsource : storeBytes { f with hDest := answer.dmac }.bytes 6 answer.smac.toList =
      some (f.withMacs answer).bytes := storeBytes_append (by simp) (by simp) _
  rw [writeMacs, hdest, Option.bind_some, hsource]

end Frame

variable {fibLookup : FibParams → FibAnswer} {ingressIfindex : UInt32}

/-- The question about the route of an ICMP packet: back to where it came from. -/
def Frame.icmpQuery (f : Frame) (ingressIfindex : UInt32) : FibParams :=
  ⟨afInet, f.daddr.toList, f.saddr.toList, ingressIfindex⟩

/-- The question about the route of another packet. -/
def Frame.transportQuery (f : Frame) (ingressIfindex : UInt32) : FibParams :=
  ⟨afInet, f.saddr.toList, f.daddr.toList, ingressIfindex⟩

/-- What the branch for ICMP does to a frame. -/
theorem icmpBranch_bytes (f : Frame) : icmpBranch fibLookup ingressIfindex f.bytes =
      some ((route (fibLookup (f.icmpQuery ingressIfindex))).map fun answer =>
        (answer.ifindex, (f.reflected.withMacs answer).bytes)) := by
  simp only [icmpBranch, f.loadBytes_daddr, f.loadBytes_saddr, Option.bind_eq_bind,
    Option.bind_some]
  change (match route (fibLookup (f.icmpQuery ingressIfindex)) with
    | .error action => _
    | .ok answer => _) = _
  cases route (fibLookup (f.icmpQuery ingressIfindex)) with
  | error action => rfl
  | ok answer =>
    simp only [f.storeBytes_daddr, Frame.storeBytes_saddr, Option.bind_some, Frame.writeMacs_bytes]
    rfl

/-- What the branches for TCP and UDP do to a frame. -/
theorem transportBranch_bytes (f : Frame) : transportBranch fibLookup ingressIfindex f.bytes =
      some ((route (fibLookup (f.transportQuery ingressIfindex))).map fun answer =>
        (answer.ifindex, (f.withMacs answer).bytes)) := by
  simp only [transportBranch, f.loadBytes_daddr, f.loadBytes_saddr, Option.bind_eq_bind,
    Option.bind_some]
  change (match route (fibLookup (f.transportQuery ingressIfindex)) with
    | .error action => _
    | .ok answer => _) = _
  cases route (fibLookup (f.transportQuery ingressIfindex)) with
  | error action => rfl
  | ok answer =>
    simp only [Option.bind_some, Frame.writeMacs_bytes]
    rfl

/-- A lookup that did not succeed ends the program by passing or dropping the packet. -/
theorem route_eq_error {answer : FibAnswer} {action : XdpAction}
    (h : route answer = .error action) : action = .pass ∨ action = .drop := by
  unfold route at h
  split_ifs at h <;> cases h
  · exact .inr rfl
  · exact .inl rfl

/-- A lookup that succeeded. -/
theorem route_eq_ok_iff {answer answer' : FibAnswer} :
    route answer = .ok answer' ↔ answer.rc = fibSuccess ∧ answer' = answer := by
  unfold route
  have hne : fibSuccess ≠ fibNoNeigh := by decide
  split_ifs with hfail hneigh
  · simp [hfail.1]
  · simp [hneigh, hne.symm]
  · have hsuccess : answer.rc = fibSuccess := by
      by_contra hsuccess
      exact hfail ⟨hsuccess, hneigh⟩
    simp [hsuccess, eq_comm]

/-! ### The checksum of the header -/

/-- The length of the IPv4 header in words of 32 bits, as its first byte has it. -/
def ihl (packet : List UInt8) : ℕ := (packet[14]?.getD 0).toNat % 16

/-- The packet has an IPv4 header of at least five words, and the checksum of the header is
correct. -/
def HeaderCorrect (packet : List UInt8) : Prop :=
  5 ≤ ihl packet ∧ onesSum ((packet.drop 14).take (ihl packet * 4)) = 65535

/-- The length that the first byte of the header of a frame has. -/
def Frame.ihl (f : Frame) : ℕ := (f.ipFixed.toList[0]?.getD 0).toNat % 16

/-- The length is in front of the addresses. -/
theorem ihl_bytes (f : Frame) : ihl f.bytes = f.ihl := by
  rw [ihl, Frame.bytes, List.getElem?_append_right (by simp), List.getElem?_append_right (by simp),
    List.getElem?_append_right (by simp), List.getElem?_append_left (by simp)]
  simp [Frame.ihl]

/-- The header of a frame, with the words behind its addresses. -/
theorem header_bytes (f : Frame) {n : ℕ} (hn : 20 ≤ n) : (f.bytes.drop 14).take n =
      f.ipFixed.toList ++ (f.saddr.toList ++ (f.daddr.toList ++ f.rest.take (n - 20))) := by
  have hfront : (f.hDest.toList ++ (f.hSource.toList ++ f.hProto.toList)).length = 14 := by simp
  have hbytes : f.bytes = (f.hDest.toList ++ (f.hSource.toList ++ f.hProto.toList)) ++
      (f.ipFixed.toList ++ (f.saddr.toList ++ (f.daddr.toList ++ f.rest))) := by
    simp only [Frame.bytes, List.append_assoc]
  have hfixed : (f.ipFixed.toList ++ (f.saddr.toList ++ f.daddr.toList)).length = 20 := by simp
  rw [hbytes, List.drop_left' hfront, ← List.append_assoc f.saddr.toList,
    ← List.append_assoc f.ipFixed.toList, List.take_append, hfixed,
    List.take_of_length_le (by omega)]
  simp only [List.append_assoc]

/-- The sum of the words does not depend on the order of the addresses. -/
theorem onesSum_swap {front addr addr' : List UInt8} (hfront : front.length % 2 = 0)
    (haddr : addr.length % 2 = 0) (haddr' : addr'.length % 2 = 0) (back : List UInt8) :
    onesSum (front ++ (addr ++ (addr' ++ back))) =
      onesSum (front ++ (addr' ++ (addr ++ back))) := by
  rw [onesSum_eq, onesSum_eq]
  simp only [words_append hfront, words_append haddr, words_append haddr', List.sum_append]
  rw [Nat.add_left_comm (words addr).sum]

/-- The checksum of the header in terms of the fields of the frame. -/
theorem headerCorrect_bytes (f : Frame) : HeaderCorrect f.bytes ↔
    5 ≤ f.ihl ∧ onesSum (f.ipFixed.toList ++ (f.saddr.toList ++ (f.daddr.toList ++
      f.rest.take (f.ihl * 4 - 20)))) = 65535 := by
  rw [HeaderCorrect, ihl_bytes]
  constructor
  · rintro ⟨hlength, hsum⟩
    rw [header_bytes f (by omega)] at hsum
    exact ⟨hlength, hsum⟩
  · rintro ⟨hlength, hsum⟩
    rw [header_bytes f (by omega)]
    exact ⟨hlength, hsum⟩

/-- Other MAC addresses leave the checksum correct. -/
theorem HeaderCorrect.withMacs {f : Frame} (h : HeaderCorrect f.bytes) (answer : FibAnswer) :
    HeaderCorrect (f.withMacs answer).bytes :=
  (headerCorrect_bytes _).mpr ((headerCorrect_bytes f).mp h)

/-- An exchange of the IPv4 addresses leaves the checksum correct. -/
theorem HeaderCorrect.reflected {f : Frame} (h : HeaderCorrect f.bytes) :
    HeaderCorrect f.reflected.bytes := by
  obtain ⟨hlength, hsum⟩ := (headerCorrect_bytes f).mp h
  refine (headerCorrect_bytes _).mpr ⟨hlength, ?_⟩
  rw [← hsum]
  exact onesSum_swap (by simp) (by simp) (by simp) _

/-! ### What the program does to a packet -/

/-- A branch passes or drops the frame as it is, or it redirects the frame with its edits. -/
theorem redirectTo_cases (f : Frame) (answer : FibAnswer) (edit : FibAnswer → Frame) :
    ∃ action packet', redirectTo f.bytes
        ((route answer).map fun answer => (answer.ifindex, (edit answer).bytes)) =
        (action, packet') ∧
      ((action = .pass ∨ action = .drop) ∧ packet' = f.bytes ∨
        action = .redirect ∧ packet' = (edit answer).bytes) := by
  cases hroute : route answer with
  | error action => exact ⟨action, f.bytes, rfl, .inl ⟨route_eq_error hroute, rfl⟩⟩
  | ok answer' =>
    obtain ⟨-, rfl⟩ := route_eq_ok_iff.mp hroute
    exact ⟨_, _, rfl, .inr ⟨rfl, rfl⟩⟩

/-- The packet is passed as it is, or it is a frame and its branch decides. -/
theorem xdpSock2Prog_cases (packet : List UInt8) :
    xdpSock2Prog fibLookup ingressIfindex packet = some (.pass, packet) ∨
      ∃ f : Frame, packet = f.bytes ∧
        (packet[23]? = some 1 ∧ xdpSock2Prog fibLookup ingressIfindex packet =
            (icmpBranch fibLookup ingressIfindex packet).map (redirectTo packet) ∨
          (packet[23]? = some 6 ∨ packet[23]? = some 17) ∧
            xdpSock2Prog fibLookup ingressIfindex packet =
              (transportBranch fibLookup ingressIfindex packet).map (redirectTo packet)) := by
  by_cases hshort : packet.length < 14
  · exact .inl (if_pos hshort)
  · obtain ⟨hProto, hload, -⟩ := load16_eq (show 12 + 1 < packet.length by omega)
    rw [xdpSock2Prog, if_neg hshort, hload, Option.bind_some]
    by_cases hproto : hProto ≠ 0x08
    · exact .inl (if_pos hproto)
    · rw [if_neg hproto]
      by_cases hheader : packet.length < 14 + 20
      · exact .inl (if_pos hheader)
      · obtain ⟨f, rfl⟩ := Frame.exists_bytes_eq (Nat.not_lt.mp hheader)
        obtain ⟨protocol, hprotocol⟩ := f.exists_protocol
        rw [if_neg hheader, hprotocol, Option.bind_some]
        simp only [Option.some.injEq]
        split_ifs with hicmp htcp htcplen hudp hudplen
        · exact .inr ⟨f, rfl, .inl ⟨hicmp, rfl⟩⟩
        · exact .inl rfl
        · exact .inr ⟨f, rfl, .inr ⟨.inl htcp, rfl⟩⟩
        · exact .inl rfl
        · exact .inr ⟨f, rfl, .inr ⟨.inr hudp, rfl⟩⟩
        · exact .inl rfl

/-- The program always ends. A packet that it passes or drops is unchanged. Of a packet that it
redirects, it has replaced the MAC addresses, and exchanged the IPv4 addresses if the protocol is
ICMP, and it has changed no other byte and kept the checksum of the header correct. -/
theorem xdpSock2Prog_rewrites (fibLookup : FibParams → FibAnswer) (ingressIfindex : UInt32)
    (packet : List UInt8) :
    ∃ action packet', xdpSock2Prog fibLookup ingressIfindex packet = some (action, packet') ∧
      ((action = .pass ∨ action = .drop) ∧ packet' = packet ∨ action = .redirect ∧
          (∃ (f : Frame) (answer : FibAnswer), packet = f.bytes ∧
            (packet[23]? = some 1 ∧ packet' = (f.reflected.withMacs answer).bytes ∨
              (packet[23]? = some 6 ∨ packet[23]? = some 17) ∧
                packet' = (f.withMacs answer).bytes)) ∧
          (HeaderCorrect packet → HeaderCorrect packet')) := by
  obtain hpass | ⟨f, rfl, ⟨hprotocol, hrun⟩ | ⟨hprotocol, hrun⟩⟩ := xdpSock2Prog_cases packet
  · exact ⟨_, _, hpass, .inl ⟨.inl rfl, rfl⟩⟩
  · rw [icmpBranch_bytes, Option.map_some] at hrun
    obtain ⟨action, packet', hbranch, hend | ⟨rfl, rfl⟩⟩ := redirectTo_cases f
      (fibLookup (f.icmpQuery ingressIfindex)) f.reflected.withMacs
    · exact ⟨_, _, hrun.trans (congrArg some hbranch), .inl hend⟩
    · exact ⟨_, _, hrun.trans (congrArg some hbranch), .inr ⟨rfl, ⟨f, _, rfl,
        .inl ⟨hprotocol, rfl⟩⟩, fun hcorrect => hcorrect.reflected.withMacs _⟩⟩
  · rw [transportBranch_bytes, Option.map_some] at hrun
    obtain ⟨action, packet', hbranch, hend | ⟨rfl, rfl⟩⟩ := redirectTo_cases f
      (fibLookup (f.transportQuery ingressIfindex)) f.withMacs
    · exact ⟨_, _, hrun.trans (congrArg some hbranch), .inl hend⟩
    · exact ⟨_, _, hrun.trans (congrArg some hbranch), .inr ⟨rfl, ⟨f, _, rfl,
        .inr ⟨hprotocol, rfl⟩⟩, fun hcorrect => hcorrect.withMacs _⟩⟩

/-- An ICMP packet from 10.0.0.1 to 10.0.0.2. -/
def ping : List UInt8 :=
  List.replicate 12 0 ++ [0x08, 0x00, 0x45, 0x00, 0x00, 0x14, 0x00, 0x00, 0x00, 0x00, 0x40, 0x01,
    0x66, 0xe7, 10, 0, 0, 1, 10, 0, 0, 2]

/-- A lookup that always succeeds. -/
def routed : FibParams → FibAnswer := fun _ =>
  ⟨fibSuccess, 3, ⟨List.replicate 6 2, rfl⟩, ⟨List.replicate 6 4, rfl⟩⟩

/-- The packet is redirected with a correct header. -/
theorem xdpSock2Prog_rewrites_ping : HeaderCorrect ping ∧
    ∃ packet', xdpSock2Prog routed 1 ping = some (.redirect, packet') ∧ HeaderCorrect packet' := by
  have hcorrect : HeaderCorrect ping := ⟨by decide, by decide⟩
  refine ⟨hcorrect, ?_⟩
  obtain ⟨action, packet', hrun, hcases⟩ := xdpSock2Prog_rewrites routed 1 ping
  have haction : (xdpSock2Prog routed 1 ping).map Prod.fst = some .redirect := by decide
  rw [hrun, Option.map_some, Option.some.injEq] at haction
  subst haction
  obtain ⟨h | h, -⟩ | ⟨-, -, hkeeps⟩ := hcases
  · cases h
  · cases h
  · exact ⟨packet', hrun, hkeeps hcorrect⟩

end Hack.Xdp
