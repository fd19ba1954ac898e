import Hack.Xdp.BlockPort

/-!
# The allow filter

This file embeds `allowed_addr_prog` of `ebpf-xdp/kernel/xdp_map_allow.c`. It takes every IPv4
header for twenty bytes long and looks for the UDP header right behind those, so the header
length that the packet names plays no role. Where the packet has IPv4 options, the filter
compares the allowed port with two bytes of the options.
-/

namespace Hack.Xdp

open NetBytes

/-- The allowed port: the first two bytes of the four that the map holds. -/
def allowPort (value : UInt32) : UInt16 := .ofNat value.toNat

/-- `allowed_addr_prog`, with what the lookup in `allowed_addr` finds. -/
def allowedAddrProg (packet : List UInt8) (allowedAddr : Option UInt32) : Option Action :=
  if 14 > packet.length then some .drop
  else
    (load16 packet 12).bind fun hProto =>
      if bswap16 hProto ≠ 0x0800 then some .pass
      else if 14 + 20 > packet.length then some .drop
      else
        match allowedAddr with
        | none => some .drop
        | some value =>
          if allowPort value = 0 then some .drop
          else
            (packet[14 + 9]?).bind fun protocol =>
              if protocol = 17 then
                if 14 + 20 + 8 > packet.length then some .drop
                else
                  (load16 packet (14 + 20 + 2)).map fun dest =>
                    if bswap16 dest = allowPort value then .pass else .drop
              else some .drop

/-- The length of the IPv4 header of a frame, as the header names it. -/
def ipv4HeaderLength (packet : List UInt8) : ℕ := byte packet 14 % 16 * 4

/-- A complete frame with an IPv4 packet: its header is complete with all options, and UDP is
followed by a complete header. -/
structure Ipv4Frame (packet : List UInt8) : Prop where
  type_eq : field16 packet 12 = 0x0800
  le_headerLength : 20 ≤ ipv4HeaderLength packet
  header_complete : 14 + ipv4HeaderLength packet ≤ packet.length
  udp_complete : byte packet 23 = 17 → 14 + ipv4HeaderLength packet + 8 ≤ packet.length

/-- The destination port in the UDP header behind the IPv4 header of a frame. -/
def udpDest (packet : List UInt8) : ℕ := field16 packet (14 + ipv4HeaderLength packet + 2)

variable {packet : List UInt8} {port : UInt16}

/-- A port that is stored in the map is read from it. -/
@[simp] theorem allowPort_toUInt32 (port : UInt16) : allowPort port.toUInt32 = port := by
  rw [allowPort, UInt16.toNat_toUInt32, UInt16.ofNat_toNat]

/-- The filter stays inside of every packet. -/
theorem isSome_allowedAddrProg (packet : List UInt8) (allowedAddr : Option UInt32) :
    (allowedAddrProg packet allowedAddr).isSome := by
  by_cases hethernet : 14 > packet.length
  · simp [allowedAddrProg, hethernet]
  obtain ⟨hProto, hload, -⟩ := load16_eq (show 12 + 1 < packet.length by omega)
  by_cases hip : 14 + 20 > packet.length
  · simp only [allowedAddrProg, hethernet, hload, hip, if_true, if_false, Option.bind_some]
    split_ifs <;> rfl
  obtain ⟨protocol, hprotocol, -⟩ := @getElem?_eq_byte packet 14 9 (by omega)
  simp only [allowedAddrProg, hethernet, hload, hip, hprotocol, if_false, Option.bind_some]
  by_cases hudp : 14 + 20 + 8 > packet.length
  · simp only [hudp, if_true]
    cases allowedAddr <;> dsimp only <;> split_ifs <;> rfl
  · obtain ⟨dest, hdest, -⟩ := load16_eq (show 14 + 20 + 2 + 1 < packet.length by omega)
    simp only [hudp, hdest, if_false, Option.map_some]
    cases allowedAddr <;> dsimp only <;> split_ifs <;> rfl

/-- The filter passes UDP with the allowed port at the place it has behind a header without
options. -/
theorem allowedAddrProg_eq_pass_iff (hframe : Ipv4Frame packet) (hport : port ≠ 0) :
    allowedAddrProg packet (some port.toUInt32) = some .pass ↔
      byte packet 23 = 17 ∧ field16 packet 36 = port.toNat := by
  obtain ⟨htype, hle, hheader, hudp⟩ := hframe
  obtain ⟨hProto, hload, hfield⟩ := load16_eq (show 12 + 1 < packet.length by omega)
  have hip : bswap16 hProto = 0x0800 := UInt16.toNat.inj (hfield.trans htype)
  obtain ⟨protocol, hprotocol, hbyte⟩ := @getElem?_eq_byte packet 14 9 (by omega)
  have hbyte' : protocol.toNat = byte packet 23 := by
    rw [hbyte, byte, byte, List.getElem?_drop]
  have hseventeen : protocol = 17 ↔ byte packet 23 = 17 := by
    rw [← hbyte', ← UInt8.toNat_inj]
    rfl
  simp only [allowedAddrProg, show ¬14 > packet.length by omega, hload, Option.bind_some, hip,
    show ¬14 + 20 > packet.length by omega, allowPort_toUInt32, hport, hprotocol, if_false,
    ne_eq, not_true_eq_false, hseventeen]
  split_ifs with hproto hend
  · exact absurd (hudp hproto) (by omega)
  · obtain ⟨dest, hdest, hdestfield⟩ := load16_eq (show 14 + 20 + 2 + 1 < packet.length by omega)
    rw [hdest, Option.map_some, Option.some_inj, ← hdestfield, UInt16.toNat_inj]
    simp [hproto]
  · simp [hproto]

/-- Without options the filter looks at the UDP header. -/
theorem udpDest_of_no_options (hoptions : ipv4HeaderLength packet = 20) :
    udpDest packet = field16 packet 36 := by
  rw [udpDest, hoptions]

/-- The filter passes exactly UDP with the allowed port in the header behind the IPv4 header, on
the frames that have the allowed port behind a header without options exactly when they have it
behind their own. -/
theorem allow_filter_reads_udp_header (hframe : Ipv4Frame packet) (hport : port ≠ 0) :
    (allowedAddrProg packet (some port.toUInt32) = some .pass ↔
        byte packet 23 = 17 ∧ udpDest packet = port.toNat) ↔
      (byte packet 23 = 17 → (field16 packet 36 = port.toNat ↔ udpDest packet = port.toNat)) := by
  rw [allowedAddrProg_eq_pass_iff hframe hport]
  exact and_congr_right_iff

/-- A datagram to port 9999 behind a header with four bytes of options: bytes 36 and 37 of the
frame are options. -/
def optionsFrame : List UInt8 :=
  List.replicate 12 0 ++ [0x08, 0x00] ++ 0x46 :: List.replicate 8 0 ++ 17 :: List.replicate 10 0 ++
    [1, 1, 1, 1] ++ [0x12, 0x34, 0x27, 0x0f, 0x00, 0x08, 0x00, 0x00]

/-- A datagram to port 9999 behind a header without options. -/
def plainFrame : List UInt8 :=
  List.replicate 12 0 ++ [0x08, 0x00] ++ 0x45 :: List.replicate 8 0 ++ 17 :: List.replicate 10 0 ++
    [0x12, 0x34, 0x27, 0x0f, 0x00, 0x08, 0x00, 0x00]

theorem ipv4Frame_plainFrame : Ipv4Frame plainFrame :=
  ⟨by decide, by decide, by decide, by decide⟩

/-- The plain datagram is passed for its port. -/
theorem allow_filter_reads_udp_header_plain :
    allowedAddrProg plainFrame (some (9999 : UInt16).toUInt32) = some .pass ↔
      byte plainFrame 23 = 17 ∧ udpDest plainFrame = (9999 : UInt16).toNat := by
  refine (allow_filter_reads_udp_header ipv4Frame_plainFrame (by decide)).mpr fun _ => ?_
  rw [udpDest_of_no_options (by decide)]

/-- The datagram with options is dropped although it goes to the allowed port. -/
theorem allow_filter_drops_options : Ipv4Frame optionsFrame ∧ byte optionsFrame 23 = 17 ∧
      udpDest optionsFrame = (9999 : UInt16).toNat ∧
      allowedAddrProg optionsFrame (some (9999 : UInt16).toUInt32) = some .drop :=
  ⟨⟨by decide, by decide, by decide, by decide⟩, by decide, by decide, by decide⟩

end Hack.Xdp
