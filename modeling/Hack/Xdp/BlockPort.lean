import Hack.NetBytes
import Mathlib.Algebra.Group.Int.Defs
import Mathlib.Algebra.Group.Nat.Defs

/-!
# The port blocker

This file embeds `xdp_block_port_func` of `ebpf-xdp/packet/kernel/xdp_packet_block.c` and the
header parsers of `parsing_helpers.h` that it calls. The parsers move a cursor through the
packet and test it against the end of the packet before every access. The verdict is then
specified on the bytes alone, header by header, and the two are shown to agree for every
packet; in particular no access is outside of the packet.
-/

namespace Hack.Xdp

open NetBytes

/-- What is to happen with a packet: `XDP_ABORTED`, `XDP_DROP`, or `XDP_PASS`. -/
inductive Action
  | aborted
  | drop
  | pass
deriving DecidableEq

/-- `VLAN_MAX_DEPTH`. -/
def vlanMaxDepth : ℕ := 2

/-- `proto_is_vlan`. -/
def protoIsVlan (hProto : UInt16) : Bool :=
  hProto = bswap16 0x8100 ∨ hProto = bswap16 0x88a8

/-- The loop over the VLAN tags, with the number of rounds that are left. -/
def skipVlans (packet : List UInt8) : ℕ → UInt16 → ℕ → Option (UInt16 × ℕ)
  | 0, hProto, vlh => some (hProto, vlh)
  | depth + 1, hProto, vlh =>
    if !protoIsVlan hProto then some (hProto, vlh)
    else if vlh + 4 > packet.length then some (hProto, vlh)
    else (load16 packet (vlh + 2)).bind fun hProto => skipVlans packet depth hProto (vlh + 4)

/-- `parse_ethhdr`: the type of what follows in network order, or -1, and the cursor. -/
def parseEthhdr (packet : List UInt8) (pos : ℕ) : Option (ℤ × ℕ) :=
  if pos + 14 > packet.length then some (-1, pos)
  else
    (load16 packet (pos + 12)).bind fun hProto =>
      (skipVlans packet vlanMaxDepth hProto (pos + 14)).map fun (hProto, vlh) =>
        (hProto.toNat, vlh)

/-- `parse_ip6hdr`. -/
def parseIp6hdr (packet : List UInt8) (pos : ℕ) : Option (ℤ × ℕ) :=
  if pos + 40 > packet.length then some (-1, pos)
  else (packet[pos + 6]?).map fun nexthdr => (nexthdr.toNat, pos + 40)

/-- `parse_iphdr`. -/
def parseIphdr (packet : List UInt8) (pos : ℕ) : Option (ℤ × ℕ) :=
  if pos + 20 > packet.length then some (-1, pos)
  else
    (packet[pos]?).bind fun first =>
      let hdrsize := first.toNat % 16 * 4
      if hdrsize < 20 then some (-1, pos)
      else if pos + hdrsize > packet.length then some (-1, pos)
      else (packet[pos + 9]?).map fun protocol => (protocol.toNat, pos + hdrsize)

/-- `parse_udphdr`. The length is subtracted as a `size_t` and becomes an `int`. -/
def parseUdphdr (packet : List UInt8) (pos : ℕ) : Option (ℤ × ℕ) :=
  if pos + 8 > packet.length then some (-1, pos)
  else
    (load16 packet (pos + 4)).map fun len =>
      let len := ((((bswap16 len).toNat : ℤ) - 8) % 2 ^ 64).bmod (2 ^ 32)
      if len < 0 then (-1, pos + 8) else (len, pos + 8)

/-- `parse_tcphdr`. -/
def parseTcphdr (packet : List UInt8) (pos : ℕ) : Option (ℤ × ℕ) :=
  if pos + 20 > packet.length then some (-1, pos)
  else
    (packet[pos + 12]?).map fun byte =>
      let len := byte.toNat / 16 * 4
      if len < 20 then (-1, pos)
      else if pos + len > packet.length then (-1, pos)
      else (len, pos + len)

/-- The verdict, the packet with the changes that were made to it, and the entry of `rxcnt`,
if it is there. -/
structure Result where
  action : Action
  packet : List UInt8
  rxcnt : Option UInt64

/-- The update of a checksum field. -/
def bumpCheck (packet : List UInt8) (i : ℕ) : Option (List UInt8) :=
  (load16 packet i).bind fun check =>
  (store16 packet i (check + bswap16 1)).bind fun packet =>
  (load16 packet i).bind fun check =>
    if check = 0 then store16 packet i (check + bswap16 1) else some packet

/-- What is done with UDP at the cursor. -/
def blockUdp (packet : List UInt8) (rxcnt : Option UInt64) (udphdr : ℕ) : Option Result :=
  (parseUdphdr packet udphdr).bind fun (len, _) =>
    if len < 0 then some ⟨.aborted, packet, rxcnt⟩
    else
      (load16 packet (udphdr + 2)).bind fun dest =>
      (store16 packet (udphdr + 2) (bswap16 (bswap16 dest - 1))).bind fun packet =>
      (bumpCheck packet (udphdr + 6)).map fun packet => ⟨.pass, packet, rxcnt⟩

/-- What is done with TCP at the cursor. -/
def blockTcp (packet : List UInt8) (rxcnt : Option UInt64) (tcphdr : ℕ) : Option Result :=
  (parseTcphdr packet tcphdr).bind fun (len, _) =>
    if len < 0 then some ⟨.aborted, packet, rxcnt⟩
    else
      (load16 packet (tcphdr + 2)).bind fun dest =>
      (store16 packet (tcphdr + 2) (bswap16 dest)).bind fun packet =>
      (bumpCheck packet (tcphdr + 16)).bind fun packet =>
      (load16 packet (tcphdr + 2)).bind fun dest =>
        if dest = 9999 then some ⟨.drop, packet, rxcnt.map (· + 1)⟩
        else
          (store16 packet (tcphdr + 2) (bswap16 dest)).map fun packet => ⟨.pass, packet, rxcnt⟩

/-- What follows the IP header. -/
def blockTransport (packet : List UInt8) (rxcnt : Option UInt64) (ipType : ℤ) (pos : ℕ) :
    Option Result :=
  if ipType = 17 then blockUdp packet rxcnt pos
  else if ipType = 6 then blockTcp packet rxcnt pos
  else some ⟨.pass, packet, rxcnt⟩

/-- `xdp_block_port_func`. -/
def xdpBlockPortFunc (packet : List UInt8) (rxcnt : Option UInt64) : Option Result :=
  (parseEthhdr packet 0).bind fun (ethType, pos) =>
    if ethType < 0 then some ⟨.aborted, packet, rxcnt⟩
    else if ethType = (bswap16 0x0800).toNat then
      (parseIphdr packet pos).bind fun (ipType, pos) => blockTransport packet rxcnt ipType pos
    else if ethType = (bswap16 0x86dd).toNat then
      (parseIp6hdr packet pos).bind fun (ipType, pos) => blockTransport packet rxcnt ipType pos
    else some ⟨.pass, packet, rxcnt⟩

/-! ### The specification -/

/-- A byte of a packet. -/
def byte (bytes : List UInt8) (i : ℕ) : ℕ := (bytes[i]?.getD 0).toNat

/-- The type and the content of a frame behind at most a number of complete VLAN tags. -/
def untagged : ℕ → ℕ → List UInt8 → ℕ × List UInt8
  | 0, type, bytes => (type, bytes)
  | tags + 1, type, bytes =>
    if (type = 0x8100 ∨ type = 0x88a8) ∧ 4 ≤ bytes.length then
      untagged tags (field16 bytes 2) (bytes.drop 4)
    else (type, bytes)

/-- The protocol and the content of an IPv4 packet with a complete header. -/
def ipv4Content (bytes : List UInt8) : Option (ℕ × List UInt8) :=
  let ihl := byte bytes 0 % 16
  if 20 ≤ bytes.length ∧ 5 ≤ ihl ∧ ihl * 4 ≤ bytes.length then
    some (byte bytes 9, bytes.drop (ihl * 4))
  else none

/-- The next header and the content of an IPv6 packet with a complete header. -/
def ipv6Content (bytes : List UInt8) : Option (ℕ × List UInt8) :=
  if 40 ≤ bytes.length then some (byte bytes 6, bytes.drop 40) else none

/-- The protocol and the content of the IP packet in a frame, if its header is complete. -/
def ipContent (packet : List UInt8) : Option (ℕ × List UInt8) :=
  let (type, bytes) := untagged 2 (field16 packet 12) (packet.drop 14)
  if type = 0x0800 then ipv4Content bytes
  else if type = 0x86dd then ipv6Content bytes
  else none

/-- A complete UDP header with a length that covers it. -/
def UdpComplete (bytes : List UInt8) : Prop := 8 ≤ bytes.length ∧ 8 ≤ field16 bytes 4

/-- A complete TCP header with its options. -/
def TcpComplete (bytes : List UInt8) : Prop :=
  20 ≤ bytes.length ∧ 5 ≤ byte bytes 12 / 16 ∧ byte bytes 12 / 16 * 4 ≤ bytes.length

instance (bytes : List UInt8) : Decidable (UdpComplete bytes) := inferInstanceAs (Decidable (_ ∧ _))

instance (bytes : List UInt8) : Decidable (TcpComplete bytes) := inferInstanceAs (Decidable (_ ∧ _))

/-- A frame that is aborted: its own header is incomplete, or it has a complete IP header
that is followed by an incomplete UDP or TCP header. -/
def Aborts (packet : List UInt8) : Prop :=
  packet.length < 14 ∨ ∃ protocol bytes, ipContent packet = some (protocol, bytes) ∧
    (protocol = 17 ∧ ¬UdpComplete bytes ∨ protocol = 6 ∧ ¬TcpComplete bytes)

/-- A frame that is dropped: it has a complete IP header and a complete TCP header with the
blocked destination port. -/
def Drops (packet : List UInt8) : Prop :=
  14 ≤ packet.length ∧ ∃ bytes, ipContent packet = some (6, bytes) ∧ TcpComplete bytes ∧
    field16 bytes 2 = 9999

/-- The verdict on a frame with a complete header, from the IP packet in it. -/
def verdict : Option (ℕ × List UInt8) → Action
  | none => .pass
  | some (protocol, bytes) =>
    if protocol = 17 then if UdpComplete bytes then .pass else .aborted
    else if protocol = 6 then
      if TcpComplete bytes then if field16 bytes 2 = 9999 then .drop else .pass else .aborted
    else .pass

/-! ### The parsers -/

variable {packet : List UInt8} {rxcnt : Option UInt64} {pos : ℕ}

/-- What a parser returns for a header: -1 if the header is not complete, and otherwise the
type of the content with the cursor at the content. -/
def Parses (packet : List UInt8) (parsed : Option (ℤ × ℕ)) : Option (ℕ × List UInt8) → Prop
  | none => ∃ pos, parsed = some (-1, pos)
  | some (type, bytes) =>
    ∃ pos ≤ packet.length, parsed = some ((type : ℤ), pos) ∧ bytes = packet.drop pos

/-- A byte of the rest of a packet. -/
theorem getElem?_eq_byte (i : ℕ) (hi : pos + i < packet.length) :
    ∃ b : UInt8, packet[pos + i]? = some b ∧ b.toNat = byte (packet.drop pos) i := by
  refine ⟨packet[pos + i], List.getElem?_eq_getElem hi, ?_⟩
  rw [byte, List.getElem?_drop, List.getElem?_eq_getElem hi, Option.getD_some]

/-- A field of the rest of a packet. -/
theorem load16_eq_field16 (i : ℕ) (hi : pos + i + 1 < packet.length) :
    ∃ v, load16 packet (pos + i) = some v ∧ (bswap16 v).toNat = field16 (packet.drop pos) i := by
  rw [field16_drop]
  exact load16_eq hi

/-- A type is compared in network order or after the swap. -/
theorem eq_bswap16_toNat_iff {v w : UInt16} :
    (v.toNat : ℤ) = (bswap16 w).toNat ↔ (bswap16 v).toNat = w.toNat := by
  rw [Int.natCast_inj, UInt16.toNat_inj, UInt16.toNat_inj, eq_bswap16_iff]

/-- The types that the loop takes for VLAN tags. -/
theorem protoIsVlan_iff (hProto : UInt16) : protoIsVlan hProto = true ↔
    (bswap16 hProto).toNat = 0x8100 ∨ (bswap16 hProto).toNat = 0x88a8 := by
  rw [protoIsVlan, decide_eq_true_iff, eq_bswap16_iff, eq_bswap16_iff, ← UInt16.toNat_inj,
    ← UInt16.toNat_inj]
  rfl

/-- The loop skips as many complete tags as it has rounds. -/
theorem skipVlans_eq (depth : ℕ) (hProto : UInt16) (hpos : pos ≤ packet.length) :
    ∃ hProto' pos', skipVlans packet depth hProto pos = some (hProto', pos') ∧
      pos' ≤ packet.length ∧
      untagged depth (bswap16 hProto).toNat (packet.drop pos) =
        ((bswap16 hProto').toNat, packet.drop pos') := by
  induction depth generalizing hProto pos with
  | zero => exact ⟨hProto, pos, rfl, hpos, rfl⟩
  | succ depth ih =>
    have hlength : 4 ≤ (packet.drop pos).length ↔ ¬pos + 4 > packet.length := by
      rw [List.length_drop]
      omega
    simp only [skipVlans, untagged, ← protoIsVlan_iff, hlength]
    by_cases hvlan : protoIsVlan hProto = true
    · by_cases hend : pos + 4 > packet.length
      · exact ⟨hProto, pos, by simp [hvlan, hend], hpos, by simp [hend]⟩
      · have hnext : pos + 4 ≤ packet.length := by omega
        have hinner : pos + 2 + 1 < packet.length := by omega
        obtain ⟨inner, hload, hfield⟩ := load16_eq_field16 2 hinner
        obtain ⟨hProto', pos', hskip, hpos', huntagged⟩ := ih inner hnext
        refine ⟨hProto', pos', ?_, hpos', ?_⟩
        · simpa [hvlan, hend, hload] using hskip
        · rw [if_pos ⟨hvlan, hend⟩, ← hfield, List.drop_drop]
          exact huntagged
    · exact ⟨hProto, pos, by simp [hvlan], hpos, by simp [hvlan]⟩

/-- The Ethernet header is followed by what is behind its tags. -/
theorem parseEthhdr_eq (hlength : 14 ≤ packet.length) : ∃ hProto : UInt16, ∃ pos ≤ packet.length,
      parseEthhdr packet 0 = some ((hProto.toNat : ℤ), pos) ∧
      untagged 2 (field16 packet 12) (packet.drop 14) =
        ((bswap16 hProto).toNat, packet.drop pos) := by
  obtain ⟨outer, hload, hfield⟩ := load16_eq (show 12 + 1 < packet.length by omega)
  obtain ⟨hProto, pos, hskip, hpos, huntagged⟩ := skipVlans_eq vlanMaxDepth outer hlength
  refine ⟨hProto, pos, hpos, ?_, hfield ▸ huntagged⟩
  rw [parseEthhdr, if_neg (by omega), Nat.zero_add, hload, Option.bind_some, Nat.zero_add, hskip]
  rfl

/-- The parser for IPv4. -/
theorem parseIphdr_parses (hpos : pos ≤ packet.length) :
    Parses packet (parseIphdr packet pos) (ipv4Content (packet.drop pos)) := by
  have hlength : (packet.drop pos).length = packet.length - pos := List.length_drop
  unfold parseIphdr
  split_ifs with hend
  · rw [ipv4Content, if_neg (by omega)]
    exact ⟨pos, rfl⟩
  · obtain ⟨first, hfirst, hbyte⟩ := getElem?_eq_byte 0 (show pos + 0 < packet.length by omega)
    obtain ⟨protocol, hprotocol, hbyte'⟩ :=
      getElem?_eq_byte 9 (show pos + 9 < packet.length by omega)
    rw [Nat.add_zero] at hfirst
    simp only [hfirst, hprotocol, Option.bind_some, Option.map_some, hbyte, hbyte', ipv4Content]
    split_ifs with hsmall hlarge hcomplete hcomplete
    · omega
    · exact ⟨pos, rfl⟩
    · omega
    · exact ⟨pos, rfl⟩
    · exact ⟨_, by omega, rfl, by rw [List.drop_drop]⟩
    · omega

/-- The parser for IPv6. -/
theorem parseIp6hdr_parses (hpos : pos ≤ packet.length) :
    Parses packet (parseIp6hdr packet pos) (ipv6Content (packet.drop pos)) := by
  have hlength : (packet.drop pos).length = packet.length - pos := List.length_drop
  unfold parseIp6hdr
  split_ifs with hend
  · rw [ipv6Content, if_neg (by omega)]
    exact ⟨pos, rfl⟩
  · obtain ⟨nexthdr, hnexthdr, hbyte⟩ :=
      getElem?_eq_byte 6 (show pos + 6 < packet.length by omega)
    rw [ipv6Content, if_pos (by omega), hnexthdr, Option.map_some, hbyte]
    exact ⟨pos + 40, by omega, rfl, by rw [List.drop_drop]⟩

/-- The length field is below the size of the header exactly when the `int` is negative. -/
theorem udpLength_nonneg_iff {n : ℕ} (hn : n < 65536) :
    0 ≤ ((((n : ℤ) - 8) % 2 ^ 64).bmod (2 ^ 32)) ↔ 8 ≤ n := by
  rw [Int.bmod_def]
  split_ifs <;> omega

/-- The parser for UDP. -/
theorem parseUdphdr_eq (hpos : pos ≤ packet.length) :
    ∃ len pos', parseUdphdr packet pos = some (len, pos') ∧
      (0 ≤ len ↔ UdpComplete (packet.drop pos)) := by
  have hlength : (packet.drop pos).length = packet.length - pos := List.length_drop
  unfold parseUdphdr UdpComplete
  split_ifs with hend
  · exact ⟨_, _, rfl, by omega⟩
  · obtain ⟨v, hload, hfield⟩ := load16_eq_field16 4 (show pos + 4 + 1 < packet.length by omega)
    have hlt := field16_lt (packet.drop pos) 4
    have hnonneg := udpLength_nonneg_iff hlt
    simp only [hload, Option.map_some, hfield]
    split_ifs
    · exact ⟨_, _, rfl, by omega⟩
    · exact ⟨_, _, rfl, by omega⟩

/-- The parser for TCP. -/
theorem parseTcphdr_eq (hpos : pos ≤ packet.length) :
    ∃ len pos', parseTcphdr packet pos = some (len, pos') ∧
      (0 ≤ len ↔ TcpComplete (packet.drop pos)) := by
  have hlength : (packet.drop pos).length = packet.length - pos := List.length_drop
  unfold parseTcphdr TcpComplete
  split_ifs with hend
  · exact ⟨_, _, rfl, by omega⟩
  · obtain ⟨b, hb, hbyte⟩ := getElem?_eq_byte 12 (show pos + 12 < packet.length by omega)
    rw [hb, Option.map_some, hbyte]
    simp only
    split_ifs with hsmall hlarge
    · exact ⟨_, _, rfl, by omega⟩
    · exact ⟨_, _, rfl, by omega⟩
    · exact ⟨_, _, rfl, by omega⟩

/-! ### The verdict -/

/-- The update of a checksum stays inside of the packet and leaves the other fields alone. -/
theorem bumpCheck_eq {i : ℕ} (hi : i + 1 < packet.length) :
    ∃ packet', bumpCheck packet i = some packet' ∧ packet'.length = packet.length ∧
      ∀ j, j + 1 < i → load16 packet' j = load16 packet j := by
  obtain ⟨check, hcheck, -⟩ := load16_eq hi
  obtain ⟨packet₁, hstore⟩ := store16_eq hi (check + bswap16 1)
  have hlength₁ := length_of_store16 hstore
  have hload := load16_of_store16 hstore
  simp only [bumpCheck, hcheck, hstore, hload, Option.bind_some]
  split_ifs with hzero
  · obtain ⟨packet₂, hstore₂⟩ := store16_eq (hlength₁ ▸ hi) (check + bswap16 1 + bswap16 1)
    refine ⟨packet₂, hstore₂, (length_of_store16 hstore₂).trans hlength₁, fun j hj => ?_⟩
    rw [load16_of_store16_ne hstore₂ (.inr hj), load16_of_store16_ne hstore (.inr hj)]
  · exact ⟨packet₁, rfl, hlength₁, fun j hj => load16_of_store16_ne hstore (.inr hj)⟩

/-- The verdict on UDP. -/
theorem blockUdp_action (hpos : pos ≤ packet.length) :
    ∃ result, blockUdp packet rxcnt pos = some result ∧
      result.action = verdict (some (17, packet.drop pos)) := by
  obtain ⟨len, pos', hparse, hnonneg⟩ := parseUdphdr_eq hpos
  simp only [blockUdp, hparse, Option.bind_some, verdict, if_true]
  by_cases hcomplete : UdpComplete (packet.drop pos)
  · have hlength : pos + 8 ≤ packet.length := by
      have := hcomplete.1
      rw [List.length_drop] at this
      omega
    obtain ⟨dest, hdest, -⟩ := load16_eq (show pos + 2 + 1 < packet.length by omega)
    obtain ⟨packet₁, hstore⟩ :=
      store16_eq (show pos + 2 + 1 < packet.length by omega) (bswap16 (bswap16 dest - 1))
    have hlength₁ := length_of_store16 hstore
    obtain ⟨packet₂, hbump, -⟩ := bumpCheck_eq (show pos + 6 + 1 < packet₁.length by omega)
    have hlen := hnonneg.mpr hcomplete
    rw [if_neg (by omega), hdest, Option.bind_some, hstore, Option.bind_some, hbump,
      if_pos hcomplete]
    exact ⟨_, rfl, rfl⟩
  · have hlen := mt hnonneg.mp hcomplete
    rw [if_pos (by omega), if_neg hcomplete]
    exact ⟨_, rfl, rfl⟩

/-- The verdict on TCP. -/
theorem blockTcp_action (hpos : pos ≤ packet.length) :
    ∃ result, blockTcp packet rxcnt pos = some result ∧
      result.action = verdict (some (6, packet.drop pos)) := by
  obtain ⟨len, pos', hparse, hnonneg⟩ := parseTcphdr_eq hpos
  have hne : ¬(6 : ℕ) = 17 := by decide
  simp only [blockTcp, hparse, Option.bind_some, verdict, hne, if_false, if_true]
  by_cases hcomplete : TcpComplete (packet.drop pos)
  · have hlength : pos + 20 ≤ packet.length := by
      have := hcomplete.1
      rw [List.length_drop] at this
      omega
    obtain ⟨dest, hdest, hfield⟩ :=
      load16_eq_field16 2 (show pos + 2 + 1 < packet.length by omega)
    obtain ⟨packet₁, hstore⟩ :=
      store16_eq (show pos + 2 + 1 < packet.length by omega) (bswap16 dest)
    have hlength₁ := length_of_store16 hstore
    obtain ⟨packet₂, hbump, hlength₂, hother⟩ :=
      bumpCheck_eq (show pos + 16 + 1 < packet₁.length by omega)
    -- The checksum is behind the port, so the port is read back as it was stored.
    have hport : load16 packet₂ (pos + 2) = some (bswap16 dest) :=
      (hother (pos + 2) (by omega)).trans (load16_of_store16 hstore)
    have hblocked : bswap16 dest = 9999 ↔ field16 (packet.drop pos) 2 = 9999 := by
      rw [← hfield, ← UInt16.toNat_inj]
      rfl
    have hlen := hnonneg.mpr hcomplete
    rw [if_neg (by omega), hdest, Option.bind_some, hstore, Option.bind_some, hbump,
      Option.bind_some, hport, Option.bind_some, if_pos hcomplete]
    by_cases h9999 : bswap16 dest = 9999
    · rw [if_pos h9999, if_pos (hblocked.mp h9999)]
      exact ⟨_, rfl, rfl⟩
    · obtain ⟨packet₃, hstore₃⟩ := store16_eq
        (show pos + 2 + 1 < packet₂.length by omega) (bswap16 (bswap16 dest))
      rw [if_neg h9999, if_neg (mt hblocked.mpr h9999), hstore₃]
      exact ⟨_, rfl, rfl⟩
  · have hlen := mt hnonneg.mp hcomplete
    rw [if_pos (by omega), if_neg hcomplete]
    exact ⟨_, rfl, rfl⟩

/-- The verdict on the content of a complete IP header. -/
theorem blockTransport_action (protocol : ℕ) (hpos : pos ≤ packet.length) :
    ∃ result, blockTransport packet rxcnt protocol pos = some result ∧
      result.action = verdict (some (protocol, packet.drop pos)) := by
  by_cases hudp : protocol = 17
  · subst hudp
    exact blockUdp_action hpos
  · by_cases htcp : protocol = 6
    · subst htcp
      exact blockTcp_action hpos
    · have hudp' : ¬(protocol : ℤ) = 17 := by omega
      have htcp' : ¬(protocol : ℤ) = 6 := by omega
      refine ⟨⟨.pass, packet, rxcnt⟩, ?_, ?_⟩
      · simp only [blockTransport, hudp', htcp', if_false]
      · simp only [verdict, hudp, htcp, if_false]

/-- What is done with a frame: it is passed as it is if no complete IP header was found in it,
and otherwise the content of that header decides. -/
def Handles (packet : List UInt8) (rxcnt : Option UInt64) (handled : Option Result) :
    Option (ℕ × List UInt8) → Prop
  | none => handled = some ⟨.pass, packet, rxcnt⟩
  | some (protocol, bytes) =>
    ∃ pos ≤ packet.length, bytes = packet.drop pos ∧
      handled = blockTransport packet rxcnt protocol pos

/-- What follows an IP parser. -/
theorem Parses.handles {parsed : Option (ℤ × ℕ)} {content : Option (ℕ × List UInt8)}
    (h : Parses packet parsed content) :
    Handles packet rxcnt
      (parsed.bind fun (ipType, pos) => blockTransport packet rxcnt ipType pos) content := by
  match content with
  | none =>
    obtain ⟨pos, rfl⟩ := h
    rfl
  | some (protocol, bytes) =>
    obtain ⟨pos, hpos, rfl, rfl⟩ := h
    exact ⟨pos, hpos, rfl, rfl⟩

/-- What is done with a frame that has a complete Ethernet header. -/
theorem xdpBlockPortFunc_handles (hlength : 14 ≤ packet.length) :
    Handles packet rxcnt (xdpBlockPortFunc packet rxcnt) (ipContent packet) := by
  obtain ⟨hProto, pos, hpos, hparse, huntagged⟩ := parseEthhdr_eq hlength
  have hnonneg : ¬(hProto.toNat : ℤ) < 0 := by omega
  have hip : (hProto.toNat : ℤ) = (bswap16 0x0800).toNat ↔ (bswap16 hProto).toNat = 0x0800 :=
    eq_bswap16_toNat_iff
  have hip6 : (hProto.toNat : ℤ) = (bswap16 0x86dd).toNat ↔ (bswap16 hProto).toNat = 0x86dd :=
    eq_bswap16_toNat_iff
  simp only [xdpBlockPortFunc, hparse, Option.bind_some, hnonneg, if_false, hip, hip6, ipContent,
    huntagged]
  split_ifs
  · exact (parseIphdr_parses hpos).handles
  · exact (parseIp6hdr_parses hpos).handles
  · rfl

/-- The verdict on a frame with a complete Ethernet header. -/
theorem xdpBlockPortFunc_action (hlength : 14 ≤ packet.length) :
    ∃ result, xdpBlockPortFunc packet rxcnt = some result ∧
      result.action = verdict (ipContent packet) := by
  have hhandles := @xdpBlockPortFunc_handles packet rxcnt hlength
  match hcontent : ipContent packet with
  | none =>
    rw [hcontent] at hhandles
    exact ⟨_, hhandles, rfl⟩
  | some (protocol, bytes) =>
    rw [hcontent] at hhandles
    obtain ⟨pos, hpos, rfl, hhandled⟩ := hhandles
    rw [hhandled]
    exact blockTransport_action protocol hpos

/-- The verdicts of the specification. -/
theorem verdict_iff (content : Option (ℕ × List UInt8)) :
    (verdict content = .aborted ↔ ∃ protocol bytes, content = some (protocol, bytes) ∧
      (protocol = 17 ∧ ¬UdpComplete bytes ∨ protocol = 6 ∧ ¬TcpComplete bytes)) ∧
    (verdict content = .drop ↔ ∃ bytes, content = some (6, bytes) ∧ TcpComplete bytes ∧
      field16 bytes 2 = 9999) := by
  match content with
  | none => simp [verdict]
  | some (protocol, bytes) =>
    simp only [verdict, Option.some_inj, Prod.mk.injEq]
    constructor <;> split_ifs <;> simp_all

/-- **The verdict of the port blocker.** Every packet gets a verdict. It is aborted or dropped
exactly when the specification says so, and passed in all other cases. -/
theorem port_blocker_verdict (packet : List UInt8) (rxcnt : Option UInt64) :
    ∃ result, xdpBlockPortFunc packet rxcnt = some result ∧
      (result.action = .aborted ↔ Aborts packet) ∧ (result.action = .drop ↔ Drops packet) ∧
      (result.action = .pass ↔ ¬Aborts packet ∧ ¬Drops packet) := by
  have hpass : ∀ action : Action, action = .pass ↔ action ≠ .aborted ∧ action ≠ .drop := by
    intro action
    cases action <;> simp
  suffices h : ∃ result, xdpBlockPortFunc packet rxcnt = some result ∧
      (result.action = .aborted ↔ Aborts packet) ∧ (result.action = .drop ↔ Drops packet) by
    obtain ⟨result, hresult, haborted, hdrop⟩ := h
    exact ⟨result, hresult, haborted, hdrop, by rw [hpass, Ne, Ne, haborted, hdrop]⟩
  unfold Aborts Drops
  by_cases hlength : packet.length < 14
  · refine ⟨⟨.aborted, packet, rxcnt⟩, ?_, ?_, ?_⟩
    · simp [xdpBlockPortFunc, parseEthhdr, hlength]
    · simp [hlength]
    · simp [Nat.not_le.mpr hlength]
  · obtain ⟨result, hresult, haction⟩ := @xdpBlockPortFunc_action packet rxcnt (by omega)
    obtain ⟨haborted, hdrop⟩ := verdict_iff (ipContent packet)
    refine ⟨result, hresult, ?_, ?_⟩
    · rw [haction, haborted, or_iff_right hlength]
    · rw [haction, hdrop, and_iff_right (by omega)]

/-- A TCP segment to port 9999 behind one VLAN tag. -/
example :
    let ethernet := List.replicate 12 0 ++ [0x81, 0x00, 0x00, 0x05, 0x08, 0x00]
    let ip := 0x45 :: List.replicate 8 0 ++ 6 :: List.replicate 10 0
    let tcp := [0x12, 0x34, 0x27, 0x0f] ++ List.replicate 8 0 ++ 0x50 :: List.replicate 7 0
    (xdpBlockPortFunc (ethernet ++ ip ++ tcp) (some 0)).map (fun r => (r.action, r.rxcnt)) =
      some (.drop, some 1) := by decide +kernel

end Hack.Xdp
