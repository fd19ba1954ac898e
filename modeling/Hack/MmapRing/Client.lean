import Hack.InternetChecksum

/-!
# The packets of the ring client

This file embeds `ipcsum` and `make_ip_packet` of `sock-raw-mmap-packet-ip/client/client.c`. The
checksum takes its length in words of 16 bits and is called with the length of the whole packet
in bytes. It adds the message, which is not copied yet, and as many bytes as the packet has
behind its end. The checksum of the words that it does read is right. The machine is
little-endian.
-/

namespace Hack.MmapRing

open InternetChecksum

/-- A 16-bit number in network order, as `htons` leaves it. -/
def networkBytes (n : ℕ) : List UInt8 := [.ofNat (n / 256), .ofNat n]

/-- A 16-bit number as the machine stores it. -/
def hostBytes (n : ℕ) : List UInt8 := [.ofNat n, .ofNat (n / 256)]

/-- `ipcsum`. The sum is an `unsigned long`. -/
def ipcsum (buf : List UInt8) (nwords : ℕ) : ℕ :=
  let sum := ((hostWords buf).take nwords).foldl (fun sum word => (sum + word) % 2 ^ 64) 0
  let sum := sum / 65536 + sum % 65536
  let sum := sum + sum / 65536
  65535 - sum % 65536

/-- The Ethernet header: `server_hw_addr`, `client_hw_addr` and the type. -/
def ethHeader : List UInt8 :=
  [0xaa, 0xaa, 0xaa, 0x01, 0x01, 0x01] ++ [0xaa, 0xaa, 0xaa, 0x02, 0x02, 0x02] ++
    networkBytes 0x0800

/-- The IP header before the checksum: version and length, type of service, total length,
identification, fragment, time to live and protocol. -/
def headerFront (totLen : ℕ) : List UInt8 :=
  0x45 :: 16 :: (networkBytes totLen ++ networkBytes 54321 ++ [0, 0] ++ [64, 0xfd])

/-- The IP header behind the checksum: source and destination. -/
def headerBack : List UInt8 := [192, 168, 10, 2] ++ [192, 168, 10, 1]

/-- The IP header. -/
def ipHeader (totLen check : ℕ) : List UInt8 :=
  headerFront totLen ++ (hostBytes check ++ headerBack)

/-- What stands behind the IP header when the checksum is made: a cleared message, and the memory
that follows the packet. -/
def behindHeader (msglen : ℕ) (following : ℕ → UInt8) : List UInt8 :=
  List.replicate msglen 0 ++ (List.range (20 + msglen)).map following

/-- `make_ip_packet`, with the memory that follows the packet. -/
def makeIpPacket (msg : List UInt8) (following : ℕ → UInt8) : List UInt8 :=
  let ipHeader' := ipHeader (20 + msg.length) 0
  let check := ipcsum (ipHeader' ++ behindHeader msg.length following) (20 + msg.length)
  ethHeader ++ ipHeader (20 + msg.length) check ++ msg

/-- The IP header of the packet has the one's complement sum that a receiver expects. -/
def HeaderVerifies (msg : List UInt8) (following : ℕ → UInt8) : Prop :=
  onesSum (((makeIpPacket msg following).drop 14).take 20) = 0xffff

variable {msg : List UInt8} {following : ℕ → UInt8} {totLen check : ℕ}

/-- Adding words to an `unsigned long`. -/
theorem foldl_add_mod (ws : List ℕ) {n : ℕ} (hn : n < 2 ^ 64) :
    ws.foldl (fun sum word => (sum + word) % 2 ^ 64) n = (n + ws.sum) % 2 ^ 64 := by
  induction ws generalizing n with
  | nil =>
    rw [List.foldl_nil, List.sum_nil]
    omega
  | cons w ws ih =>
    rw [List.foldl_cons, ih (by omega), List.sum_cons]
    omega

/-- What `ipcsum` computes for as many words as 32 bits can add up. -/
theorem ipcsum_eq {buf : List UInt8} {nwords : ℕ} (hlength : buf.length = 2 * nwords)
    (hwords : nwords ≤ 65537) : ipcsum buf nwords = 65535 - reduced (hostWords buf).sum := by
  have hcount := length_hostWords hlength
  have hsum : (hostWords buf).sum < 2 ^ 32 := by
    have hle := sum_hostWords_le buf
    rw [hcount] at hle
    omega
  have hfold := foldl_add_mod (hostWords buf) (n := 0) (by decide)
  rw [Nat.zero_add, Nat.mod_eq_of_lt (by omega)] at hfold
  rw [ipcsum, List.take_of_length_le hcount.le, hfold]
  exact congrArg (65535 - ·) (carries_eq_reduced hsum)

/-- A word between two other parts of a buffer. -/
theorem sum_hostWords_hostBytes {front : List UInt8} (heven : front.length % 2 = 0)
    (hcheck : check < 65536) (back : List UInt8) :
    (hostWords (front ++ (hostBytes check ++ back))).sum =
      (hostWords front).sum + (check + (hostWords back).sum) := by
  have hword : (UInt8.ofNat check).toNat + (UInt8.ofNat (check / 256)).toNat * 256 = check := by
    rw [UInt8.toNat_ofNat', UInt8.toNat_ofNat']
    omega
  rw [hostWords_append heven, List.sum_append, hostBytes, List.cons_append, List.cons_append,
    List.nil_append, hostWords, List.sum_cons, hword]

/-- A number is the Internet checksum of a buffer: it makes the sum of the words a positive
multiple of 65535, it is the complement of their sum with end-around carry, and in the place of a
word of zero it makes that sum all ones. -/
structure IsChecksum (buf : List UInt8) (check : ℕ) : Prop where
  pos : 0 < (hostWords buf).sum + check
  dvd : 65535 ∣ (hostWords buf).sum + check
  complement : check = 65535 - (hostWords buf).foldl onesAdd 0
  stored : ∀ front back, front.length % 2 = 0 → buf = front ++ (hostBytes 0 ++ back) →
    (hostWords (front ++ (hostBytes check ++ back))).foldl onesAdd 0 = 65535 ∧
      onesSum (front ++ (hostBytes check ++ back)) = 65535

/-- **The checksum of a buffer.** For as many words as 32 bits can add up, `ipcsum` computes the
Internet checksum. -/
theorem isChecksum_ipcsum {buf : List UInt8} {nwords : ℕ} (hlength : buf.length = 2 * nwords)
    (hwords : nwords ≤ 65537) : IsChecksum buf (ipcsum buf nwords) := by
  have hcheck := ipcsum_eq hlength hwords
  have hreduced := reduced_add_complement (hostWords buf).sum
  obtain ⟨hne, hmod⟩ := reduced_eq_iff.mp hreduced
  refine ⟨by omega, ?_, ?_, ?_⟩
  · rw [hcheck]
    exact Nat.dvd_of_mod_eq_zero hmod
  · rw [foldl_onesAdd_hostWords, hcheck]
  · intro front back heven hbuf
    have hzero := sum_hostWords_hostBytes heven (show 0 < 65536 by decide) back
    have hstored := sum_hostWords_hostBytes heven (show ipcsum buf nwords < 65536 by omega) back
    generalize front ++ (hostBytes (ipcsum buf nwords) ++ back) = stored at hstored
    have hsum : (hostWords stored).sum =
        (hostWords buf).sum + (65535 - reduced (hostWords buf).sum) := by
      rw [← hbuf] at hzero
      omega
    have hones : reduced (hostWords stored).sum = 65535 := by rw [hsum, hreduced]
    refine ⟨(foldl_onesAdd_hostWords stored).trans hones, ?_⟩
    rw [reduced_eq_iff] at hones
    rw [onesSum_eq_iff_hostWords ((sum_words_eq_zero_iff stored).not.mpr hones.1)]
    exact hones.2

/-- A sum whose first folding has a carry itself. -/
theorem isChecksum_carry : ipcsum [255, 255, 255, 255, 1, 0, 0, 0] 4 = 65534 ∧
    IsChecksum [255, 255, 255, 255, 1, 0, 0, 0] (ipcsum [255, 255, 255, 255, 1, 0, 0, 0] 4) :=
  ⟨by decide, isChecksum_ipcsum rfl (by decide)⟩

theorem length_headerFront (totLen : ℕ) : (headerFront totLen).length = 10 := rfl

theorem length_ipHeader (totLen check : ℕ) : (ipHeader totLen check).length = 20 := rfl

/-- The checksum is one of the words of the header. -/
theorem sum_hostWords_ipHeader (hcheck : check < 65536) : (hostWords (ipHeader totLen check)).sum =
    (hostWords (headerFront totLen)).sum + (check + (hostWords headerBack).sum) := by
  have heven : (headerFront totLen).length % 2 = 0 := by rw [length_headerFront]
  exact sum_hostWords_hostBytes heven hcheck headerBack

/-- The header begins with its version. -/
theorem sum_words_ipHeader_ne_zero (totLen check : ℕ) :
    (words (ipHeader totLen check)).sum ≠ 0 := by
  have hversion : (0x45 : UInt8).toNat ≠ 0 := by decide
  rw [ipHeader, headerFront, List.cons_append, List.cons_append, words, List.sum_cons]
  omega

/-- The header in the packet. -/
theorem take_drop_makeIpPacket (msg : List UInt8) (following : ℕ → UInt8) :
    ((makeIpPacket msg following).drop 14).take 20 = ipHeader (20 + msg.length)
      (ipcsum (ipHeader (20 + msg.length) 0 ++ behindHeader msg.length following)
        (20 + msg.length)) := by
  have heth : ethHeader.length = 14 := rfl
  rw [makeIpPacket, List.append_assoc, List.drop_left' heth, List.take_left' (length_ipHeader _ _)]

/-- The header verifies exactly if the words that the checksum takes from behind it add up to a
multiple of 65535. -/
theorem headerVerifies_iff (hmsg : msg.length ≤ 65515) : HeaderVerifies msg following ↔
    (hostWords (behindHeader msg.length following)).sum % 65535 = 0 := by
  generalize hbuf : ipHeader (20 + msg.length) 0 ++ behindHeader msg.length following = buf
  have hlength : buf.length = 2 * (20 + msg.length) := by
    rw [← hbuf, List.length_append, length_ipHeader, behindHeader, List.length_append,
      List.length_replicate, List.length_map, List.length_range]
    omega
  have hbufSum : (hostWords buf).sum = (hostWords (headerFront (20 + msg.length))).sum +
      (hostWords headerBack).sum + (hostWords (behindHeader msg.length following)).sum := by
    have heven : (ipHeader (20 + msg.length) 0).length % 2 = 0 := by rw [length_ipHeader]
    rw [← hbuf, hostWords_append heven, List.sum_append, sum_hostWords_ipHeader (by decide),
      Nat.zero_add]
  -- The sum has 32 bits, so the carries are added completely.
  have hcheck := ipcsum_eq hlength (by omega)
  obtain ⟨hle, hmod⟩ := reduced_le_and_mod (hostWords buf).sum
  rw [HeaderVerifies, take_drop_makeIpPacket, hbuf, hcheck,
    onesSum_eq_iff_hostWords (sum_words_ipHeader_ne_zero _ _), sum_hostWords_ipHeader (by omega)]
  omega

/-- A message of one byte, with cleared memory behind the packet. -/
theorem headerVerifies_cleared : HeaderVerifies [65] fun _ => 0 :=
  (headerVerifies_iff (by decide)).mpr (by decide)

/-- Without a message, and with a single bit in the memory behind the packet. -/
theorem not_headerVerifies_bit : ¬HeaderVerifies [] fun i => if i = 0 then 1 else 0 := by
  unfold HeaderVerifies
  decide

end Hack.MmapRing
