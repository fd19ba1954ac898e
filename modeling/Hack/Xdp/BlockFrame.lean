import Hack.Xdp.BlockPort

/-!
# What the port blocker leaves behind

The port blocker edits the transport header of a packet before it decides. For TCP it restores
the port of a packet that it passes, but not the checksum, and for UDP it restores nothing. So a
packet that is passed is unchanged exactly when no transport header was found in it.
-/

namespace Hack.Xdp

open NetBytes

deriving instance DecidableEq for Result

variable {packet packet' : List UInt8} {rxcnt : Option UInt64} {result : Result} {pos i : ℕ}

/-- The update of a checksum changes it. -/
theorem load16_bumpCheck_ne (h : bumpCheck packet i = some packet') :
    load16 packet' i ≠ load16 packet i := by
  simp only [bumpCheck, Option.bind_eq_some_iff] at h
  obtain ⟨check, hcheck, packet₁, hstore, check₁, hcheck₁, h⟩ := h
  obtain rfl : check + bswap16 1 = check₁ :=
    Option.some_inj.mp ((load16_of_store16 hstore).symm.trans hcheck₁)
  rw [hcheck]
  split_ifs at h with hzero
  · rw [load16_of_store16 h, Ne, Option.some_inj, UInt16.add_assoc, UInt16.add_eq_left]
    decide
  · obtain rfl := Option.some_inj.mp h
    rw [hcheck₁, Ne, Option.some_inj, UInt16.add_eq_left]
    decide

/-- A UDP packet that is passed has changed. -/
theorem blockUdp_packet_ne (h : blockUdp packet rxcnt pos = some result)
    (hpass : result.action = .pass) : result.packet ≠ packet := by
  simp only [blockUdp, Option.bind_eq_some_iff] at h
  obtain ⟨⟨len, _⟩, -, h⟩ := h
  split_ifs at h
  · obtain rfl := Option.some_inj.mp h
    cases hpass
  · simp only [Option.bind_eq_some_iff, Option.map_eq_some_iff] at h
    obtain ⟨dest, hdest, packet₁, hstore, packet₂, hbump, rfl⟩ := h
    intro heq
    -- The checksum of the edited packet is not the one that was there.
    have hcheck := load16_bumpCheck_ne hbump
    have hkept : load16 packet₁ (pos + 6) = load16 packet (pos + 6) :=
      load16_of_store16_ne hstore (.inl (by omega))
    exact hcheck (by rw [hkept, ← heq])

/-- A TCP packet that is passed has changed. -/
theorem blockTcp_packet_ne (h : blockTcp packet rxcnt pos = some result)
    (hpass : result.action = .pass) : result.packet ≠ packet := by
  simp only [blockTcp, Option.bind_eq_some_iff] at h
  obtain ⟨⟨len, _⟩, -, h⟩ := h
  split_ifs at h
  · obtain rfl := Option.some_inj.mp h
    cases hpass
  · simp only [Option.bind_eq_some_iff] at h
    obtain ⟨dest, hdest, packet₁, hstore, packet₂, hbump, dest₂, hdest₂, h⟩ := h
    split_ifs at h
    · obtain rfl := Option.some_inj.mp h
      cases hpass
    · obtain ⟨packet₃, hstore₃, rfl⟩ := Option.map_eq_some_iff.mp h
      intro heq
      have hcheck := load16_bumpCheck_ne hbump
      have hkept : load16 packet₁ (pos + 16) = load16 packet (pos + 16) :=
        load16_of_store16_ne hstore (.inl (by omega))
      have hkept₃ : load16 packet₃ (pos + 16) = load16 packet₂ (pos + 16) :=
        load16_of_store16_ne hstore₃ (.inl (by omega))
      exact hcheck (by rw [hkept, ← hkept₃, ← heq])

/-- A frame with an incomplete Ethernet header is not passed. -/
theorem le_length_of_pass (h : xdpBlockPortFunc packet rxcnt = some result)
    (hpass : result.action = .pass) : 14 ≤ packet.length := by
  by_contra hlength
  have hparse : parseEthhdr packet 0 = some (-1, 0) := if_pos (by omega)
  have haborted : xdpBlockPortFunc packet rxcnt = some ⟨.aborted, packet, rxcnt⟩ := by
    rw [xdpBlockPortFunc, hparse]
    rfl
  obtain rfl := Option.some_inj.mp (haborted.symm.trans h)
  cases hpass

/-- What becomes of the content of a complete IP header in a packet that is passed. -/
theorem blockTransport_packet_eq_iff {protocol : ℕ}
    (h : blockTransport packet rxcnt protocol pos = some result) (hpass : result.action = .pass) :
    result.packet = packet ↔ protocol ≠ 6 ∧ protocol ≠ 17 := by
  unfold blockTransport at h
  split_ifs at h with hudp htcp
  · have hne := blockUdp_packet_ne h hpass
    exact iff_of_false hne (by omega)
  · have hne := blockTcp_packet_ne h hpass
    exact iff_of_false hne (by omega)
  · obtain rfl := Option.some_inj.mp h
    exact iff_of_true rfl (by omega)

/-- A packet that is passed is unchanged exactly when no IP header in it was found to be followed
by TCP or UDP. -/
theorem passed_packet_unchanged_iff (h : xdpBlockPortFunc packet rxcnt = some result)
    (hpass : result.action = .pass) :
    result.packet = packet ↔ ∀ protocol bytes, ipContent packet = some (protocol, bytes) →
      protocol ≠ 6 ∧ protocol ≠ 17 := by
  have hhandles := @xdpBlockPortFunc_handles packet rxcnt (le_length_of_pass h hpass)
  rw [h] at hhandles
  match hcontent : ipContent packet with
  | none =>
    rw [hcontent] at hhandles
    obtain rfl := Option.some_inj.mp hhandles
    simp
  | some (protocol, bytes) =>
    rw [hcontent] at hhandles
    obtain ⟨pos, -, rfl, hhandled⟩ := hhandles
    rw [blockTransport_packet_eq_iff hhandled.symm hpass]
    simp

/-- A TCP segment to port 80. -/
def tcpFrame : List UInt8 :=
  List.replicate 12 0 ++ [0x08, 0x00] ++ 0x45 :: List.replicate 8 0 ++ 6 :: List.replicate 10 0 ++
    [0x12, 0x34, 0x00, 0x50] ++ List.replicate 8 0 ++ 0x50 :: List.replicate 7 0

/-- The segment is passed with another checksum. -/
theorem passed_tcp_changed : ∃ result, xdpBlockPortFunc tcpFrame none = some result ∧
    ipContent tcpFrame = some (6, tcpFrame.drop 34) ∧ result.action = .pass ∧
      result.packet ≠ tcpFrame :=
  ⟨⟨.pass, tcpFrame.set 51 1, none⟩, by decide +kernel, by decide +kernel, rfl, by decide +kernel⟩

/-- The same segment behind an IPv6 header that names an extension header first. -/
def extensionFrame : List UInt8 :=
  List.replicate 12 0 ++ [0x86, 0xdd] ++ 0x60 :: List.replicate 5 0 ++ 0 :: List.replicate 33 0 ++
    [6, 0] ++ List.replicate 6 0 ++ tcpFrame.drop 34

/-- The segment behind the extension header is passed as it is. -/
theorem passed_packet_unchanged_iff_extension :
    ∃ result, xdpBlockPortFunc extensionFrame none = some result ∧ result.action = .pass ∧
      result.packet = extensionFrame := by
  have h : xdpBlockPortFunc extensionFrame none = some ⟨.pass, extensionFrame, none⟩ := by
    decide +kernel
  have hcontent : ipContent extensionFrame = some (0, extensionFrame.drop 54) := by decide +kernel
  refine ⟨_, h, rfl, (passed_packet_unchanged_iff h rfl).mpr fun protocol bytes hsome => ?_⟩
  rw [hcontent] at hsome
  cases hsome
  decide

end Hack.Xdp
