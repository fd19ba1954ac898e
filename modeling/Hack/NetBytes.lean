import Mathlib.Data.List.Basic

/-!
# Fields of network packets

A program on a little-endian machine reads two adjacent bytes of a packet as a number with
its low byte first, and swaps the bytes to get the number that was sent. This file has the
accesses to a packet as a program makes them, each of which fails outside of the packet, and
relates them to the number in network order that a field holds.
-/

namespace Hack.NetBytes

/-- `bpf_htons` and `bpf_ntohs` on a little-endian machine. -/
def bswap16 (v : UInt16) : UInt16 := .ofNat (v.toNat % 256 * 256 + v.toNat / 256)

/-- Two bytes of a packet, read as a number. -/
def load16 (packet : List UInt8) (i : ℕ) : Option UInt16 :=
  (packet[i]?).bind fun low => (packet[i + 1]?).map fun high =>
    .ofNat (low.toNat + 256 * high.toNat)

/-- A number stored in two bytes of a packet. -/
def store16 (packet : List UInt8) (i : ℕ) (v : UInt16) : Option (List UInt8) :=
  if i + 1 < packet.length then
    some ((packet.set i (.ofNat v.toNat)).set (i + 1) (.ofNat (v.toNat / 256)))
  else none

/-- Some bytes of a packet. -/
def loadBytes (packet : List UInt8) (i n : ℕ) : Option (List UInt8) :=
  if i + n ≤ packet.length then some ((packet.drop i).take n) else none

/-- Bytes copied over those of a packet. -/
def storeBytes (packet : List UInt8) (i : ℕ) (bytes : List UInt8) : Option (List UInt8) :=
  if i + bytes.length ≤ packet.length then
    some (packet.take i ++ (bytes ++ packet.drop (i + bytes.length)))
  else none

/-- The number that a field of two bytes holds in network order. -/
def field16 (packet : List UInt8) (i : ℕ) : ℕ :=
  (packet[i]?.getD 0).toNat * 256 + (packet[i + 1]?.getD 0).toNat

variable {packet packet' : List UInt8} {i j : ℕ} {v : UInt16} {front bytes : List UInt8}

/-- What swapping the bytes does to the number. -/
theorem toNat_bswap16 (v : UInt16) : (bswap16 v).toNat = v.toNat % 256 * 256 + v.toNat / 256 := by
  have hv := v.toNat_lt
  rw [bswap16, UInt16.toNat_ofNat']
  omega

/-- Swapping the bytes twice does nothing. -/
@[simp] theorem bswap16_bswap16 (v : UInt16) : bswap16 (bswap16 v) = v := by
  have hv := v.toNat_lt
  apply UInt16.toNat.inj
  rw [toNat_bswap16, toNat_bswap16]
  omega

/-- A number can be compared on either side of the swap. -/
theorem eq_bswap16_iff {w : UInt16} : v = bswap16 w ↔ bswap16 v = w := by
  constructor
  · rintro rfl
    exact bswap16_bswap16 w
  · rintro rfl
    exact (bswap16_bswap16 v).symm

/-- A field holds a number of two bytes. -/
theorem field16_lt (packet : List UInt8) (i : ℕ) : field16 packet i < 65536 := by
  have hhigh := (packet[i]?.getD 0).toNat_lt
  have hlow := (packet[i + 1]?.getD 0).toNat_lt
  unfold field16
  omega

/-- A field of the rest of a packet. -/
theorem field16_drop (packet : List UInt8) (n i : ℕ) :
    field16 (packet.drop n) i = field16 packet (n + i) := by
  rw [field16, field16, List.getElem?_drop, List.getElem?_drop, Nat.add_assoc]

/-- Reading a field gives its number with the bytes swapped. -/
theorem load16_eq (hi : i + 1 < packet.length) :
    ∃ v, load16 packet i = some v ∧ (bswap16 v).toNat = field16 packet i := by
  rw [load16, field16, List.getElem?_eq_getElem (Nat.lt_of_succ_lt hi), List.getElem?_eq_getElem hi]
  refine ⟨_, rfl, ?_⟩
  have hlow := packet[i].toNat_lt
  have hhigh := packet[i + 1].toNat_lt
  rw [toNat_bswap16, UInt16.toNat_ofNat', Option.getD_some, Option.getD_some]
  omega

/-- Storing succeeds inside of a packet. -/
theorem store16_eq (hi : i + 1 < packet.length) (v : UInt16) :
    ∃ packet', store16 packet i v = some packet' :=
  ⟨_, if_pos hi⟩

section Store

variable (h : store16 packet i v = some packet')
include h

/-- Storing does not change the length of a packet. -/
theorem length_of_store16 : packet'.length = packet.length := by
  unfold store16 at h
  split_ifs at h
  cases h
  rw [List.length_set, List.length_set]

/-- What was stored is read back. -/
theorem load16_of_store16 : load16 packet' i = some v := by
  unfold store16 at h
  split_ifs at h with hi
  cases h
  have hv := v.toNat_lt
  have hlow : ((packet.set i (.ofNat v.toNat)).set (i + 1) (.ofNat (v.toNat / 256)))[i]? =
      some (.ofNat v.toNat) := by
    rw [List.getElem?_set_ne (by omega), List.getElem?_set_self (by omega)]
  have hhigh : ((packet.set i (.ofNat v.toNat)).set (i + 1) (.ofNat (v.toNat / 256)))[i + 1]? =
      some (.ofNat (v.toNat / 256)) := by
    rw [List.getElem?_set_self (by rw [List.length_set]; omega)]
  rw [load16, hlow, hhigh, Option.bind_some, Option.map_some, Option.some_inj]
  apply UInt16.toNat.inj
  rw [UInt16.toNat_ofNat', UInt8.toNat_ofNat', UInt8.toNat_ofNat']
  omega

/-- Storing leaves the fields beside it alone. -/
theorem load16_of_store16_ne (hij : i + 1 < j ∨ j + 1 < i) :
    load16 packet' j = load16 packet j := by
  unfold store16 at h
  split_ifs at h
  cases h
  rw [load16, load16, List.getElem?_set_ne (by omega), List.getElem?_set_ne (by omega),
    List.getElem?_set_ne (by omega), List.getElem?_set_ne (by omega)]

end Store

/-- Reading the bytes between others. -/
theorem loadBytes_append {n : ℕ} (hi : front.length = i) (hn : bytes.length = n)
    (back : List UInt8) :
    loadBytes (front ++ (bytes ++ back)) i n = some bytes := by
  have hinside : i + n ≤ (front ++ (bytes ++ back)).length := by
    rw [List.length_append, List.length_append]
    omega
  rw [loadBytes, if_pos hinside, List.drop_left' hi, List.take_left' hn]

/-- Writing over the bytes between others. -/
theorem storeBytes_append {old : List UInt8} (hi : front.length = i)
    (hold : old.length = bytes.length) (back : List UInt8) :
    storeBytes (front ++ (old ++ back)) i bytes = some (front ++ (bytes ++ back)) := by
  have hinside : i + bytes.length ≤ (front ++ (old ++ back)).length := by
    rw [List.length_append, List.length_append]
    omega
  rw [storeBytes, if_pos hinside, List.take_left' hi, ← List.drop_drop, List.drop_left' hi,
    List.drop_left' hold]

/-- A field in the front of a packet. -/
theorem field16_append (hi : i + 1 < front.length) (back : List UInt8) :
    field16 (front ++ back) i = field16 front i := by
  rw [field16, field16, List.getElem?_append_left (by omega), List.getElem?_append_left hi]

/-- Reading the number behind some bytes. -/
theorem load16_append (front back : List UInt8) (low high : UInt8) :
    load16 (front ++ low :: high :: back) front.length =
      some (.ofNat (low.toNat + 256 * high.toNat)) := by
  rw [load16, List.getElem?_append_right (Nat.le_refl _), Nat.sub_self,
    List.getElem?_append_right (Nat.le_add_right _ 1), Nat.add_sub_cancel_left]
  rfl

/-- Writing the number behind some bytes. -/
theorem store16_append (front back : List UInt8) (low high : UInt8) (v : UInt16) :
    store16 (front ++ low :: high :: back) front.length v =
      some (front ++ .ofNat v.toNat :: .ofNat (v.toNat / 256) :: back) := by
  have hinside : front.length + 1 < (front ++ low :: high :: back).length := by
    rw [List.length_append, List.length_cons, List.length_cons]
    omega
  rw [store16, if_pos hinside, List.set_append_right _ _ (Nat.le_refl _), Nat.sub_self,
    List.set_append_right _ _ (Nat.le_add_right _ 1), Nat.add_sub_cancel_left]
  rfl

end Hack.NetBytes
