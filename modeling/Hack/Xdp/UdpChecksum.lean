import Hack.InternetChecksum
import Hack.Xdp.BlockFrame

/-!
# The checksum of UDP in the port blocker

For UDP the port blocker decrements the destination port and updates the checksum in place. It adds
one to the second byte of the field in wrap-around arithmetic. The checksum stays correct exactly
when this addition has no carry into the first byte.
-/

namespace Hack.Xdp

open NetBytes InternetChecksum

/-- The pseudo header of a UDP datagram in IPv4: the addresses, the protocol and the length. -/
def ipv4Pseudo (ip udp : List UInt8) : List UInt8 :=
  (ip.drop 12).take 8 ++ [0, 17] ++ (udp.drop 4).take 2

/-- The pseudo header of a UDP datagram in IPv6: the addresses, the length and the protocol, each
filled up to 32 bits. -/
def ipv6Pseudo (ip udp : List UInt8) : List UInt8 :=
  (ip.drop 8).take 32 ++ [0, 0] ++ (udp.drop 4).take 2 ++ [0, 0, 0, 17]

/-- The pseudo header and the datagram of a frame with UDP in it. -/
def udpDatagram (packet : List UInt8) : Option (List UInt8 × List UInt8) :=
  let (type, ip) := untagged 2 (field16 packet 12) (packet.drop 14)
  if type = 0x0800 then
    (ipv4Content ip).bind fun (protocol, udp) =>
      if protocol = 17 then some (ipv4Pseudo ip udp, udp) else none
  else if type = 0x86dd then
    (ipv6Content ip).bind fun (protocol, udp) =>
      if protocol = 17 then some (ipv6Pseudo ip udp, udp) else none
  else none

/-- A frame with a UDP datagram that has a complete header and a correct checksum, which is not
zero. The checksum covers the pseudo header and as many bytes as the length says. -/
structure CorrectUdp (packet pseudo udp : List UInt8) : Prop where
  datagram : udpDatagram packet = some (pseudo, udp)
  complete : UdpComplete udp
  nonzero : field16 udp 6 ≠ 0
  sum : onesSum (pseudo ++ udp.take (field16 udp 4)) = 65535

variable {packet pseudo udp : List UInt8} {rxcnt : Option UInt64} {result : Result}
  {type protocol n : ℕ} {ip content header : List UInt8} {d₀ d₁ c₀ c₁ : UInt8}

/-! ### Where the datagram is -/

/-- The tags in front of the content, which do not depend on it. -/
theorem exists_untagged_front {depth type' : ℕ} {bytes : List UInt8}
    (h : untagged depth type bytes = (type', ip)) :
    ∃ tags, bytes = tags ++ ip ∧ ∀ ip', ip'.length = ip.length →
      untagged depth type (tags ++ ip') = (type', ip') := by
  induction depth generalizing type bytes with
  | zero =>
    obtain ⟨rfl, rfl⟩ := Prod.mk.inj h
    exact ⟨[], rfl, fun _ _ => rfl⟩
  | succ depth ih =>
    rw [untagged] at h
    split_ifs at h with htag
    · obtain ⟨tags, hbytes, hother⟩ := ih h
      have hfour : (bytes.take 4).length = 4 := List.length_take_of_le htag.2
      refine ⟨bytes.take 4 ++ tags, ?_, fun ip' hip' => ?_⟩
      · rw [List.append_assoc, ← hbytes, List.take_append_drop]
      · have hfield : field16 (bytes.take 4 ++ (tags ++ ip')) 2 = field16 bytes 2 := by
          rw [field16_append (by omega), ← field16_append (by omega) (bytes.drop 4),
            List.take_append_drop]
        have hlength : 4 ≤ (bytes.take 4 ++ (tags ++ ip')).length := by
          rw [List.length_append]
          omega
        rw [List.append_assoc, untagged, if_pos ⟨htag.1, hlength⟩, hfield,
          List.drop_left' hfour, hother ip' hip']
    · obtain ⟨rfl, rfl⟩ := Prod.mk.inj h
      refine ⟨[], rfl, fun ip' hip' => ?_⟩
      rw [List.nil_append, untagged, if_neg (by rwa [hip'])]

/-- The IPv4 header in front of the content, which does not depend on it. -/
theorem exists_ipv4_front (h : ipv4Content ip = some (protocol, content)) :
    ∃ header, ip = header ++ content ∧ 20 ≤ header.length ∧ ∀ content',
      content'.length = content.length →
        ipv4Content (header ++ content') = some (protocol, content') := by
  unfold ipv4Content at h
  dsimp only at h
  split_ifs at h with hheader
  obtain ⟨rfl, rfl⟩ := Prod.mk.inj (Option.some.inj h)
  obtain ⟨hlength, hihl, hfits⟩ := hheader
  have htake : (ip.take (byte ip 0 % 16 * 4)).length = byte ip 0 % 16 * 4 :=
    List.length_take_of_le hfits
  refine ⟨ip.take (byte ip 0 % 16 * 4), (List.take_append_drop _ _).symm, by omega,
    fun content' hcontent' => ?_⟩
  have hbyte (i : ℕ) (hi : i < 20) :
      byte (ip.take (byte ip 0 % 16 * 4) ++ content') i = byte ip i := by
    rw [byte, List.getElem?_append_left (by omega), List.getElem?_take_of_lt (by omega), byte]
  have hcomplete : 20 ≤ (ip.take (byte ip 0 % 16 * 4) ++ content').length ∧ 5 ≤ byte ip 0 % 16 ∧
      byte ip 0 % 16 * 4 ≤ (ip.take (byte ip 0 % 16 * 4) ++ content').length := by
    rw [List.length_append, htake]
    omega
  unfold ipv4Content
  dsimp only
  rw [hbyte 0 (by decide), hbyte 9 (by decide), if_pos hcomplete, List.drop_left' htake]

/-- The IPv6 header in front of the content, which does not depend on it. -/
theorem exists_ipv6_front (h : ipv6Content ip = some (protocol, content)) :
    ∃ header, ip = header ++ content ∧ header.length = 40 ∧ ∀ content',
      ipv6Content (header ++ content') = some (protocol, content') := by
  unfold ipv6Content at h
  split_ifs at h with hheader
  obtain ⟨rfl, rfl⟩ := Prod.mk.inj (Option.some.inj h)
  have htake : (ip.take 40).length = 40 := List.length_take_of_le hheader
  refine ⟨ip.take 40, (List.take_append_drop _ _).symm, htake, fun content' => ?_⟩
  have hbyte : byte (ip.take 40 ++ content') 6 = byte ip 6 := by
    rw [byte, List.getElem?_append_left (by omega), List.getElem?_take_of_lt (by omega), byte]
  rw [ipv6Content, if_pos (by rw [List.length_append]; omega), hbyte, List.drop_left' htake]

/-- What is in front of the content of an IP header in a frame, which does not depend on the
content. -/
theorem exists_frame_front (hheader : 0 < header.length)
    (h : untagged 2 (field16 packet 12) (packet.drop 14) = (type, header ++ content)) :
    ∃ front, packet = front ++ content ∧ 14 ≤ front.length ∧
      ∀ content', content'.length = content.length →
      untagged 2 (field16 (front ++ content') 12) ((front ++ content').drop 14) =
        (type, header ++ content') := by
  obtain ⟨tags, hbytes, hother⟩ := exists_untagged_front h
  have hethernet : (packet.take 14).length = 14 := by
    have hlength := congrArg List.length hbytes
    rw [List.length_drop, List.length_append, List.length_append] at hlength
    exact List.length_take_of_le (by omega)
  have hpacket : packet = packet.take 14 ++ (tags ++ (header ++ content)) := by
    rw [← hbytes, List.take_append_drop]
  refine ⟨packet.take 14 ++ (tags ++ header), ?_, ?_, fun content' hcontent' => ?_⟩
  · simpa only [List.append_assoc] using hpacket
  · rw [List.length_append, hethernet]
    omega
  · have hfield : field16 packet 12 = field16 (packet.take 14) 12 := by
      nth_rewrite 1 [hpacket]
      exact field16_append (by omega) _
    have hip : (header ++ content').length = (header ++ content).length := by
      rw [List.length_append, List.length_append, hcontent']
    rw [hfield] at hother
    simp only [List.append_assoc]
    rw [field16_append (by omega), List.drop_left' hethernet, hother _ hip]

/-- A part of a header does not depend on the content. -/
theorem take_drop_append {i : ℕ} (h : i + n ≤ header.length) (content : List UInt8) :
    ((header ++ content).drop i).take n = (header.drop i).take n := by
  rw [List.drop_append_of_le_length (by omega), List.take_append_of_le_length]
  rw [List.length_drop]
  omega

/-- The pseudo header in IPv4 has whole words. -/
theorem even_length_ipv4Pseudo (hheader : 20 ≤ header.length) (hudp : 6 ≤ udp.length) :
    (ipv4Pseudo (header ++ udp) udp).length % 2 = 0 := by
  simp only [ipv4Pseudo, List.length_append, List.length_take, List.length_drop, List.length_cons,
    List.length_nil]
  omega

/-- The pseudo header in IPv6 has whole words. -/
theorem even_length_ipv6Pseudo (hheader : header.length = 40) (hudp : 6 ≤ udp.length) :
    (ipv6Pseudo (header ++ udp) udp).length % 2 = 0 := by
  simp only [ipv6Pseudo, List.length_append, List.length_take, List.length_drop, List.length_cons,
    List.length_nil]
  omega

/-- A datagram is the content of an IP header with the protocol of UDP. -/
theorem content_of_datagram {content : Option (ℕ × List UInt8)} {pseudoOf : List UInt8 → List UInt8}
    (h : (content.bind fun (protocol, udp) =>
      if protocol = 17 then some (pseudoOf udp, udp) else none) = some (pseudo, udp)) :
    content = some (17, udp) ∧ pseudo = pseudoOf udp := by
  obtain ⟨⟨protocol, udp'⟩, hcontent, h⟩ := Option.bind_eq_some_iff.mp h
  dsimp only at h
  split_ifs at h with hprotocol
  cases h
  subst hprotocol
  exact ⟨hcontent, rfl⟩

/-- What is in front of the datagram in a frame. Another datagram of the same length and with the
same length field has the same pseudo header. -/
theorem exists_udp_front (h : udpDatagram packet = some (pseudo, udp)) :
    ipContent packet = some (17, udp) ∧ (6 ≤ udp.length → pseudo.length % 2 = 0) ∧
    ∃ front, packet = front ++ udp ∧ 14 ≤ front.length ∧
      ∀ udp', udp'.length = udp.length → (udp'.drop 4).take 2 = (udp.drop 4).take 2 →
        udpDatagram (front ++ udp') = some (pseudo, udp') := by
  unfold udpDatagram at h
  unfold ipContent
  generalize huntagged : untagged 2 (field16 packet 12) (packet.drop 14) = r at h
  obtain ⟨type, ip⟩ := r
  dsimp only at h ⊢
  have hne : ¬(0x86dd : ℕ) = 0x0800 := by decide
  split_ifs at h with htype htype
  · subst htype
    obtain ⟨hcontent, rfl⟩ := content_of_datagram h
    obtain ⟨header, rfl, hlength, hother⟩ := exists_ipv4_front hcontent
    obtain ⟨front, hpacket, hethernet, hfront⟩ := exists_frame_front (by omega) huntagged
    rw [if_pos rfl]
    refine ⟨hcontent, even_length_ipv4Pseudo hlength, front, hpacket, hethernet,
      fun udp' hudp' hfield => ?_⟩
    simp only [udpDatagram, hfront udp' hudp', hother udp' hudp', Option.bind_some, if_true,
      ipv4Pseudo, hfield, take_drop_append (show 12 + 8 ≤ header.length by omega)]
  · subst htype
    obtain ⟨hcontent, rfl⟩ := content_of_datagram h
    obtain ⟨header, rfl, hlength, hother⟩ := exists_ipv6_front hcontent
    obtain ⟨front, hpacket, hethernet, hfront⟩ := exists_frame_front (by omega) huntagged
    rw [if_neg hne, if_pos rfl]
    refine ⟨hcontent, even_length_ipv6Pseudo hlength, front, hpacket, hethernet,
      fun udp' hudp' hfield => ?_⟩
    simp only [udpDatagram, hfront udp' hudp', hother udp', Option.bind_some, if_true, hne,
      if_false, ipv6Pseudo, hfield, take_drop_append (show 8 + 32 ≤ header.length by omega)]

/-! ### What becomes of the datagram -/

/-- The second byte of a checksum after the update: one more, without a carry, and once again one
more if both bytes are zero then. -/
def bumped (c₀ c₁ : UInt8) : UInt8 := if c₀ = 0 ∧ c₁ + 1 = 0 then 1 else c₁ + 1

/-- Adding one in network order, as the program does it, to a number that was loaded. -/
theorem add_bswap16_one (c₀ c₁ : UInt8) : UInt16.ofNat (c₀.toNat + 256 * c₁.toNat) + bswap16 1 =
      UInt16.ofNat (c₀.toNat + 256 * (c₁ + 1).toNat) := by
  have h₀ := c₀.toNat_lt
  have h₁ := c₁.toNat_lt
  apply UInt16.toNat_inj.mp
  rw [UInt16.toNat_add, UInt16.toNat_ofNat', UInt16.toNat_ofNat', UInt8.toNat_add,
    show (bswap16 1).toNat = 256 from rfl, show (1 : UInt8).toNat = 1 from rfl]
  omega

/-- The bytes of a number that was loaded. -/
theorem ofNat_bytes (c₀ c₁ : UInt8) :
    UInt8.ofNat (UInt16.ofNat (c₀.toNat + 256 * c₁.toNat)).toNat = c₀ ∧
      UInt8.ofNat ((UInt16.ofNat (c₀.toNat + 256 * c₁.toNat)).toNat / 256) = c₁ := by
  have h₀ := c₀.toNat_lt
  have h₁ := c₁.toNat_lt
  constructor <;>
  · apply UInt8.toNat_inj.mp
    rw [UInt8.toNat_ofNat', UInt16.toNat_ofNat']
    omega

/-- A number of two bytes is zero when both bytes are. -/
theorem ofNat_eq_zero_iff (c₀ c₁ : UInt8) :
    UInt16.ofNat (c₀.toNat + 256 * c₁.toNat) = 0 ↔ c₀ = 0 ∧ c₁ = 0 := by
  have h₀ := c₀.toNat_lt
  have h₁ := c₁.toNat_lt
  rw [← UInt16.toNat_inj, ← UInt8.toNat_inj, ← UInt8.toNat_inj, UInt16.toNat_ofNat',
    show (0 : UInt16).toNat = 0 from rfl, show (0 : UInt8).toNat = 0 from rfl]
  omega

/-- The update of a checksum behind some bytes. -/
theorem bumpCheck_append (front back : List UInt8) (c₀ c₁ : UInt8) :
    bumpCheck (front ++ c₀ :: c₁ :: back) front.length =
      some (front ++ c₀ :: bumped c₀ c₁ :: back) := by
  simp only [bumpCheck, load16_append, store16_append, Option.bind_some, add_bswap16_one,
    ofNat_bytes, ofNat_eq_zero_iff, bumped]
  split_ifs with hzero
  · rw [hzero.2]
    rfl
  · rfl

/-- The bytes of a port that is at least one, after it was decremented in network order. -/
theorem decremented_bytes (hport : 1 ≤ d₀.toNat * 256 + d₁.toNat) :
    let port := bswap16 (bswap16 (.ofNat (d₀.toNat + 256 * d₁.toNat)) - 1)
    UInt8.ofNat port.toNat = .ofNat ((d₀.toNat * 256 + d₁.toNat - 1) / 256) ∧
      UInt8.ofNat (port.toNat / 256) = .ofNat (d₀.toNat * 256 + d₁.toNat - 1) := by
  have h₀ := d₀.toNat_lt
  have h₁ := d₁.toNat_lt
  have hload : (bswap16 (.ofNat (d₀.toNat + 256 * d₁.toNat))).toNat =
      d₀.toNat * 256 + d₁.toNat := by
    rw [toNat_bswap16, UInt16.toNat_ofNat']
    omega
  have hdecremented : (bswap16 (.ofNat (d₀.toNat + 256 * d₁.toNat)) - 1).toNat =
      d₀.toNat * 256 + d₁.toNat - 1 := by
    rw [UInt16.toNat_sub, hload, show (1 : UInt16).toNat = 1 from rfl]
    omega
  have hlt : d₀.toNat * 256 + d₁.toNat - 1 < 65536 := by omega
  intro port
  rw [show port.toNat = _ from toNat_bswap16 _, hdecremented]
  generalize d₀.toNat * 256 + d₁.toNat - 1 = decremented at hlt
  have hswapped : (decremented % 256 * 256 + decremented / 256) / 256 = decremented % 256 := by
    omega
  constructor
  · apply UInt8.toNat_inj.mp
    rw [UInt8.toNat_ofNat', UInt8.toNat_ofNat']
    omega
  · apply UInt8.toNat_inj.mp
    rw [hswapped, UInt8.toNat_ofNat', UInt8.toNat_ofNat']
    omega

/-- A port that is at least one, decremented. -/
theorem exists_decremented (hport : 1 ≤ d₀.toNat * 256 + d₁.toNat) :
    ∃ p₀ p₁ : UInt8, p₀ = .ofNat ((d₀.toNat * 256 + d₁.toNat - 1) / 256) ∧
      p₁ = .ofNat (d₀.toNat * 256 + d₁.toNat - 1) ∧
      p₀.toNat * 256 + p₁.toNat = d₀.toNat * 256 + d₁.toNat - 1 := by
  have h₀ := d₀.toNat_lt
  have h₁ := d₁.toNat_lt
  refine ⟨_, _, rfl, rfl, ?_⟩
  rw [UInt8.toNat_ofNat', UInt8.toNat_ofNat']
  omega

/-- The fields of a header of eight bytes, and what follows it. -/
theorem exists_udp_fields (h : 8 ≤ udp.length) : ∃ s₀ s₁ d₀ d₁ l₀ l₁ c₀ c₁ payload,
      udp = s₀ :: s₁ :: d₀ :: d₁ :: l₀ :: l₁ :: c₀ :: c₁ :: payload := by
  match udp, h with
  | s₀ :: s₁ :: d₀ :: d₁ :: l₀ :: l₁ :: c₀ :: c₁ :: payload, _ =>
    exact ⟨s₀, s₁, d₀, d₁, l₀, l₁, c₀, c₁, payload, rfl⟩

/-- What UDP at the cursor becomes. -/
theorem blockUdp_append (front payload : List UInt8) (s₀ s₁ d₀ d₁ l₀ l₁ c₀ c₁ : UInt8)
    (hlength : 8 ≤ l₀.toNat * 256 + l₁.toNat) (hport : 1 ≤ d₀.toNat * 256 + d₁.toNat) :
    blockUdp (front ++ s₀ :: s₁ :: d₀ :: d₁ :: l₀ :: l₁ :: c₀ :: c₁ :: payload) rxcnt
        front.length =
      some ⟨.pass, front ++ s₀ :: s₁ :: .ofNat ((d₀.toNat * 256 + d₁.toNat - 1) / 256) ::
        .ofNat (d₀.toNat * 256 + d₁.toNat - 1) :: l₀ :: l₁ :: c₀ :: bumped c₀ c₁ :: payload,
        rxcnt⟩ := by
  generalize hpacket : front ++ s₀ :: s₁ :: d₀ :: d₁ :: l₀ :: l₁ :: c₀ :: c₁ :: payload = packet
  have hdrop : packet.drop front.length =
      s₀ :: s₁ :: d₀ :: d₁ :: l₀ :: l₁ :: c₀ :: c₁ :: payload := by
    rw [← hpacket, List.drop_left]
  have hcomplete : UdpComplete (packet.drop front.length) := by
    rw [hdrop]
    exact ⟨by simp, hlength⟩
  have hpos : front.length ≤ packet.length := by
    rw [← hpacket, List.length_append]
    omega
  obtain ⟨len, pos', hparse, hnonneg⟩ := parseUdphdr_eq hpos
  have hlen := hnonneg.mpr hcomplete
  -- The port is behind two bytes, and the checksum behind four more.
  have hport₁ : packet = (front ++ [s₀, s₁]) ++ d₀ :: d₁ :: l₀ :: l₁ :: c₀ :: c₁ :: payload := by
    rw [← hpacket, List.append_assoc]
    rfl
  have hport₂ : front.length + 2 = (front ++ [s₀, s₁]).length := by simp
  obtain ⟨hhigh, hlow⟩ := decremented_bytes hport
  simp only [blockUdp, hparse, Option.bind_some]
  rw [if_neg (by omega), hport₁, hport₂, load16_append, Option.bind_some, store16_append,
    Option.bind_some, hhigh, hlow]
  generalize UInt8.ofNat ((d₀.toNat * 256 + d₁.toNat - 1) / 256) = p₀
  generalize UInt8.ofNat (d₀.toNat * 256 + d₁.toNat - 1) = p₁
  have hcheck₁ : (front ++ [s₀, s₁]) ++ p₀ :: p₁ :: l₀ :: l₁ :: c₀ :: c₁ :: payload =
      (front ++ [s₀, s₁, p₀, p₁, l₀, l₁]) ++ c₀ :: c₁ :: payload := by
    simp only [List.append_assoc, List.cons_append, List.nil_append]
  have hcheck₂ : front.length + 6 = (front ++ [s₀, s₁, p₀, p₁, l₀, l₁]).length := by simp
  rw [hcheck₁, hcheck₂, bumpCheck_append, Option.map_some]
  simp only [List.append_assoc, List.cons_append, List.nil_append]

/-! ### The sum of the words -/

/-- The words that a checksum covers. -/
theorem sum_words_udp (heven : pseudo.length % 2 = 0) (hn : 8 ≤ n) (s₀ s₁ d₀ d₁ l₀ l₁ c₀ c₁ : UInt8)
    (payload : List UInt8) :
    (words (pseudo ++ (s₀ :: s₁ :: d₀ :: d₁ :: l₀ :: l₁ :: c₀ :: c₁ :: payload).take n)).sum =
      (words pseudo).sum + (s₀.toNat * 256 + s₁.toNat) + (d₀.toNat * 256 + d₁.toNat) +
        (l₀.toNat * 256 + l₁.toNat) + (c₀.toNat * 256 + c₁.toNat) +
        (words (payload.take (n - 8))).sum := by
  obtain ⟨k, rfl⟩ := Nat.exists_eq_add_of_le' hn
  simp only [words_append heven, List.sum_append, List.take_succ_cons, words, List.sum_cons,
    Nat.add_sub_cancel]
  omega

/-- The second byte of the checksum after the update, as a number. -/
theorem toNat_bumped (c₀ c₁ : UInt8) : (bumped c₀ c₁).toNat =
      if c₁.toNat = 255 then if c₀.toNat = 0 then 1 else 0 else c₁.toNat + 1 := by
  have h₁ := c₁.toNat_lt
  have hwrap : c₁ + 1 = 0 ↔ c₁.toNat = 255 := by
    rw [← UInt8.toNat_inj, UInt8.toNat_add, show (1 : UInt8).toNat = 1 from rfl,
      show (0 : UInt8).toNat = 0 from rfl]
    omega
  have hzero : c₀ = 0 ↔ c₀.toNat = 0 := UInt8.toNat_inj.symm
  have hadd : (c₁ + 1).toNat = (c₁.toNat + 1) % 256 := UInt8.toNat_add c₁ 1
  simp only [bumped, hwrap, hzero]
  by_cases hlast : c₁.toNat = 255
  · by_cases hfirst : c₀.toNat = 0
    · rw [if_pos ⟨hfirst, hlast⟩, if_pos hlast, if_pos hfirst]
      rfl
    · rw [if_neg fun h => hfirst h.1, if_pos hlast, if_neg hfirst, hadd, hlast]
  · rw [if_neg fun h => hlast h.2, if_neg hlast, hadd]
    omega

/-- The checksum is not zero after the update. -/
theorem bumped_ne_zero (c₀ c₁ : UInt8) : c₀.toNat * 256 + (bumped c₀ c₁).toNat ≠ 0 := by
  rw [toNat_bumped]
  split_ifs <;> omega

/-- A correct checksum stays correct when one is added to it for the one that is taken from the
port, which the update does unless the second byte is all ones. -/
theorem sum_mod_iff {rest d : ℕ} (hd : 1 ≤ d)
    (hsum : (rest + d + (c₀.toNat * 256 + c₁.toNat)) % 65535 = 0) :
    (rest + (d - 1) + (c₀.toNat * 256 + (bumped c₀ c₁).toNat)) % 65535 = 0 ↔ c₁.toNat ≠ 255 := by
  have h₁ := c₁.toNat_lt
  rw [toNat_bumped]
  split_ifs <;> omega

/-- The sum of the words of a datagram with the next lower port and the updated checksum. -/
theorem onesSum_update_iff (heven : pseudo.length % 2 = 0) (hn : 8 ≤ n) {s₀ s₁ p₀ p₁ l₀ l₁ : UInt8}
    {payload : List UInt8} (hport : 1 ≤ d₀.toNat * 256 + d₁.toNat)
    (hp : p₀.toNat * 256 + p₁.toNat = d₀.toNat * 256 + d₁.toNat - 1)
    (hsum : onesSum (pseudo ++ (s₀ :: s₁ :: d₀ :: d₁ :: l₀ :: l₁ :: c₀ :: c₁ :: payload).take n) =
      65535) :
    onesSum (pseudo ++
      (s₀ :: s₁ :: p₀ :: p₁ :: l₀ :: l₁ :: c₀ :: bumped c₀ c₁ :: payload).take n) = 65535 ↔
      c₁.toNat ≠ 255 := by
  have hnonzero := bumped_ne_zero c₀ c₁
  rw [onesSum_eq, reduced_eq_iff, sum_words_udp heven hn] at hsum ⊢
  rw [hp]
  generalize (words pseudo).sum = front at hsum ⊢
  generalize (words (payload.take (n - 8))).sum = back at hsum ⊢
  -- The words that do not change, in one sum.
  obtain ⟨rest, hrest⟩ : ∃ rest, rest = front + (s₀.toNat * 256 + s₁.toNat) +
      (l₀.toNat * 256 + l₁.toNat) + back := ⟨_, rfl⟩
  have hmod : (rest + (d₀.toNat * 256 + d₁.toNat) + (c₀.toNat * 256 + c₁.toNat)) % 65535 = 0 := by
    have hsum := hsum.2
    omega
  rw [← sum_mod_iff hport hmod, and_iff_right (by omega)]
  constructor <;>
  · intro hmod'
    omega

/-- A correct UDP datagram with a port of at least one is passed with the next lower port. Its
checksum is correct again, and not zero, exactly when the second byte of the checksum was not all
ones. -/
theorem udp_checksum_update_iff (h : CorrectUdp packet pseudo udp) (hport : 1 ≤ field16 udp 2)
    (rxcnt : Option UInt64) :
    ∃ result, xdpBlockPortFunc packet rxcnt = some result ∧ result.action = .pass ∧
      ((∃ pseudo' udp', CorrectUdp result.packet pseudo' udp' ∧
        field16 udp' 2 = field16 udp 2 - 1) ↔ byte udp 7 ≠ 255) := by
  obtain ⟨hdatagram, hcomplete, hnonzero, hsum⟩ := h
  obtain ⟨hip, heven, front, rfl, hethernet, hother⟩ := exists_udp_front hdatagram
  have hhandles := @xdpBlockPortFunc_handles (front ++ udp) rxcnt
    (by rw [List.length_append]; omega)
  rw [hip] at hhandles
  obtain ⟨pos, hpos, hdrop, hhandled⟩ := hhandles
  have hfront : pos = front.length := by
    have hlength := congrArg List.length hdrop
    rw [List.length_drop, List.length_append] at hlength
    rw [List.length_append] at hpos
    have := hcomplete.1
    omega
  subst hfront
  obtain ⟨s₀, s₁, d₀, d₁, l₀, l₁, c₀, c₁, payload, rfl⟩ := exists_udp_fields hcomplete.1
  have heven := heven (by simp)
  have hlen : 8 ≤ l₀.toNat * 256 + l₁.toNat := hcomplete.2
  have hport : 1 ≤ d₀.toNat * 256 + d₁.toNat := hport
  refine ⟨_, hhandled.trans (blockUdp_append front payload s₀ s₁ d₀ d₁ l₀ l₁ c₀ c₁ hlen hport),
    rfl, ?_⟩
  obtain ⟨p₀, p₁, hp₀, hp₁, hp⟩ := exists_decremented hport
  simp only [← hp₀, ← hp₁]
  have hnew := hother (s₀ :: s₁ :: p₀ :: p₁ :: l₀ :: l₁ :: c₀ :: bumped c₀ c₁ :: payload) rfl rfl
  have hcorrect := onesSum_update_iff heven hlen hport hp hsum
  constructor
  · rintro ⟨pseudo', udp', ⟨hdatagram', -, -, hsum'⟩, -⟩
    obtain ⟨rfl, rfl⟩ := Prod.mk.inj (Option.some.inj (hnew.symm.trans hdatagram'))
    exact hcorrect.mp hsum'
  · intro hlast
    exact ⟨pseudo, _, ⟨hnew, ⟨by simp, hlen⟩, bumped_ne_zero c₀ c₁, hcorrect.mpr hlast⟩, hp⟩

/-- An IPv4 frame with a UDP datagram without data. -/
def udpFrame (d₀ d₁ c₀ c₁ : UInt8) : List UInt8 :=
  List.replicate 12 0 ++ [0x08, 0x00] ++ 0x45 :: List.replicate 8 0 ++ 17 :: List.replicate 10 0 ++
    [0, 0, d₀, d₁, 0, 8, c₀, c₁]

/-- The pseudo header of that datagram. -/
def udpFramePseudo : List UInt8 := List.replicate 9 0 ++ [17, 0, 8]

/-- A datagram to port 1 with the checksum `0xffdd`. -/
theorem udp_checksum_update_ffdd :
    ∃ result, xdpBlockPortFunc (udpFrame 0 1 0xff 0xdd) none = some result ∧
      ∃ pseudo' udp', CorrectUdp result.packet pseudo' udp' ∧ field16 udp' 2 = 0 := by
  have hcorrect : CorrectUdp (udpFrame 0 1 0xff 0xdd) udpFramePseudo
      [0, 0, 0, 1, 0, 8, 0xff, 0xdd] :=
    ⟨by decide +kernel, by decide, by decide, by decide⟩
  obtain ⟨result, hrun, -, hiff⟩ := udp_checksum_update_iff hcorrect (by decide) none
  exact ⟨result, hrun, hiff.mpr (by decide)⟩

/-- A datagram to port 223 with the checksum `0xfeff` is passed with the checksum `0xfe00`, which
is wrong. -/
theorem udp_checksum_feff_wrong :
    CorrectUdp (udpFrame 0 223 0xfe 0xff) udpFramePseudo [0, 0, 0, 223, 0, 8, 0xfe, 0xff] ∧
      xdpBlockPortFunc (udpFrame 0 223 0xfe 0xff) none =
        some ⟨.pass, udpFrame 0 222 0xfe 0x00, none⟩ ∧
      ¬∃ pseudo' udp', CorrectUdp (udpFrame 0 222 0xfe 0x00) pseudo' udp' := by
  refine ⟨⟨by decide +kernel, by decide, by decide, by decide⟩, by decide +kernel, ?_⟩
  rintro ⟨pseudo', udp', hdatagram, -, -, hsum⟩
  have heval : udpDatagram (udpFrame 0 222 0xfe 0x00) =
      some (udpFramePseudo, [0, 0, 0, 222, 0, 8, 0xfe, 0x00]) := by decide +kernel
  obtain ⟨rfl, rfl⟩ := Prod.mk.inj (Option.some.inj (heval.symm.trans hdatagram))
  exact absurd hsum (by decide)

end Hack.Xdp
