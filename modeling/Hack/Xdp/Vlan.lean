import Hack.Xdp.BlockPort

/-!
# VLAN tags in front of a frame

This file embeds `vlan_tag_pop` and `vlan_tag_push` of `ebpf-xdp/packet/kernel/rewrite_helpers.h`,
which move the Ethernet header over the room in front of a packet, and `parse_ethhdr_vlan` of
`parsing_helpers.h` with the VLAN ids that it collects. A frame is then described by its addresses,
its stack of tags and its content. The calls act on the bytes of a frame as a stack does, in any
order and number, and the parser reads the top of the stack.
-/

namespace Hack.Xdp

open NetBytes

/-- `struct xdp_md`: the bytes in front of the packet that it may grow into, and the packet. -/
structure XdpMd where
  headroom : List UInt8
  packet : List UInt8
deriving DecidableEq

/-- `bpf_xdp_adjust_head`: the start of the packet moves, and an Ethernet header has to be left. -/
def bpfXdpAdjustHead (ctx : XdpMd) (offset : ℤ) : Option XdpMd :=
  let buffer := ctx.headroom ++ ctx.packet
  let start := ctx.headroom.length + offset
  if start < 0 ∨ start + 14 > buffer.length then none
  else some ⟨buffer.take start.toNat, buffer.drop start.toNat⟩

/-- `vlan_tag_pop`: what is returned, and the packet afterwards. -/
def vlanTagPop (ctx : XdpMd) : Option (ℤ × XdpMd) :=
  (load16 ctx.packet 12).bind fun outer =>
    if !protoIsVlan outer then some (-1, ctx)
    else if 14 + 4 > ctx.packet.length then some (-1, ctx)
    else
      (load16 ctx.packet 14).bind fun tci =>
      (load16 ctx.packet 16).bind fun hProto =>
      (loadBytes ctx.packet 0 14).bind fun ethCpy =>
        match bpfXdpAdjustHead ctx 4 with
        | none => some (-1, ctx)
        | some ctx =>
          if 14 > ctx.packet.length then some (-1, ctx)
          else
            (storeBytes ctx.packet 0 ethCpy).bind fun packet =>
            (store16 packet 12 hProto).map fun packet =>
              ((bswap16 tci).toNat, ⟨ctx.headroom, packet⟩)

/-- `vlan_tag_push`. The id is an `int` of which a tag takes 16 bits. -/
def vlanTagPush (ctx : XdpMd) (vlid : ℤ) : Option (ℤ × XdpMd) :=
  (loadBytes ctx.packet 0 14).bind fun ethCpy =>
    match bpfXdpAdjustHead ctx (-4) with
    | none => some (-1, ctx)
    | some ctx =>
      if 14 > ctx.packet.length then some (-1, ctx)
      else
        (storeBytes ctx.packet 0 ethCpy).bind fun packet =>
          if 14 + 4 > packet.length then some (-1, ⟨ctx.headroom, packet⟩)
          else
            (store16 packet 14 (bswap16 (.ofNat (vlid % 2 ^ 16).toNat))).bind fun packet =>
            (load16 packet 12).bind fun hProto =>
            (store16 packet 16 hProto).bind fun packet =>
            (store16 packet 12 (bswap16 0x8100)).map fun packet => (0, ⟨ctx.headroom, packet⟩)

/-- The loop of `parse_ethhdr_vlan` over the tags, with the number of rounds that are left. The
ids go to an array, if there is one. -/
def collectVlans (packet : List UInt8) :
    ℕ → ℕ → UInt16 → ℕ → Option (List UInt16) → Option (UInt16 × ℕ × Option (List UInt16))
  | 0, _, hProto, vlh, vlans => some (hProto, vlh, vlans)
  | left + 1, i, hProto, vlh, vlans =>
    if !protoIsVlan hProto then some (hProto, vlh, vlans)
    else if vlh + 4 > packet.length then some (hProto, vlh, vlans)
    else
      (load16 packet (vlh + 2)).bind fun hProto =>
        match vlans with
        | none => collectVlans packet left (i + 1) hProto (vlh + 4) none
        | some id =>
          (load16 packet vlh).bind fun tci =>
            if i < id.length then
              collectVlans packet left (i + 1) hProto (vlh + 4)
                (some (id.set i (bswap16 tci &&& 0x0fff)))
            else none

/-- `parse_ethhdr_vlan`: the type of what follows in network order, or -1, the cursor, and the
ids. -/
def parseEthhdrVlan (packet : List UInt8) (pos : ℕ) (vlans : Option (List UInt16)) :
    Option (ℤ × ℕ × Option (List UInt16)) :=
  if pos + 14 > packet.length then some (-1, pos, vlans)
  else
    (load16 packet (pos + 12)).bind fun hProto =>
      (collectVlans packet vlanMaxDepth 0 hProto (pos + 14) vlans).map fun (hProto, vlh, vlans) =>
        (hProto.toNat, vlh, vlans)

/-! ### Frames -/

/-- A number in network order. -/
def wire (v : UInt16) : List UInt8 := [.ofNat (v.toNat / 256), .ofNat v.toNat]

/-- The types that announce a tag. -/
def VlanType (type : UInt16) : Prop := type = 0x8100 ∨ type = 0x88a8

/-- A tag with the type that announces it. -/
structure Tag where
  tpid : UInt16
  tci : UInt16
  vlanType : VlanType tpid

/-- A frame: its addresses, its tags from the outermost inwards, and its content with a type that
does not announce another tag. -/
structure TaggedFrame where
  addresses : List UInt8
  tags : List Tag
  type : UInt16
  payload : List UInt8
  length_addresses : addresses.length = 12
  not_vlanType : ¬VlanType type

/-- The bytes behind the addresses of a frame. -/
def tagged : List Tag → UInt16 → List UInt8 → List UInt8
  | [], type, payload => wire type ++ payload
  | tag :: tags, type, payload => wire tag.tpid ++ (wire tag.tci ++ tagged tags type payload)

/-- The type that stands behind the addresses or behind a tag. -/
def headType (tags : List Tag) (type : UInt16) : UInt16 :=
  match tags with
  | [] => type
  | tag :: _ => tag.tpid

/-- The bytes behind that type. -/
def afterType (tags : List Tag) (type : UInt16) (payload : List UInt8) : List UInt8 :=
  match tags with
  | [] => payload
  | tag :: tags => wire tag.tci ++ tagged tags type payload

/-- The id in a tag, without its priority. -/
def Tag.vid (tag : Tag) : UInt16 := tag.tci &&& 0x0fff

/-- The frame without its tags. -/
def TaggedFrame.untag (f : TaggedFrame) : TaggedFrame := { f with tags := [] }

/-- The bytes of a frame. -/
def TaggedFrame.bytes (f : TaggedFrame) : List UInt8 :=
  f.addresses ++ tagged f.tags f.type f.payload

/-- The tag that is pushed for an id. -/
def Tag.of (vlid : ℤ) : Tag := ⟨0x8100, .ofNat (vlid % 2 ^ 16).toNat, .inl rfl⟩

/-- A call of one of the two functions. -/
inductive TagCall
  | push (vlid : ℤ)
  | pop

/-- The calls on a packet. -/
def tagCall (ctx : XdpMd) : TagCall → Option (ℤ × XdpMd)
  | .push vlid => vlanTagPush ctx vlid
  | .pop => vlanTagPop ctx

/-- The values that a sequence of calls returns, and the packet afterwards. -/
def tagCalls (ctx : XdpMd) : List TagCall → Option (List ℤ × XdpMd)
  | [] => some ([], ctx)
  | call :: calls =>
    (tagCall ctx call).bind fun (value, ctx) =>
      (tagCalls ctx calls).map fun (values, ctx) => (value :: values, ctx)

/-- A call on a stack of tags with room for some bytes. -/
def stackCall (room : ℕ) (tags : List Tag) : TagCall → ℤ × ℕ × List Tag
  | .push vlid => if room < 4 then (-1, room, tags) else (0, room - 4, .of vlid :: tags)
  | .pop =>
    match tags with
    | [] => (-1, room, [])
    | tag :: tags => (tag.tci.toNat, room + 4, tags)

/-- A sequence of calls on a stack of tags. -/
def stackCalls (room : ℕ) (tags : List Tag) : List TagCall → List ℤ × ℕ × List Tag
  | [] => ([], room, tags)
  | call :: calls =>
    let (value, room, tags) := stackCall room tags call
    let (values, room, tags) := stackCalls room tags calls
    (value :: values, room, tags)

/-! ### The calls on bytes -/

variable {packet : List UInt8} {front back : List UInt8} {i : ℕ} {bytes headroom stale : List UInt8}

/-- A number in network order is read with its bytes swapped. -/
theorem load16_wire (hi : front.length = i) (v : UInt16) (back : List UInt8) :
    load16 (front ++ (wire v ++ back)) i = some (bswap16 v) := by
  have hv := v.toNat_lt
  have hdiv : v.toNat / 256 < 256 := by omega
  subst hi
  refine (load16_append front back _ _).trans (congrArg some (UInt16.toNat.inj ?_))
  rw [toNat_bswap16, UInt16.toNat_ofNat', UInt8.toNat_ofNat', UInt8.toNat_ofNat',
    Nat.mod_eq_of_lt hdiv]
  omega

/-- A number with its bytes swapped is stored in network order. -/
theorem store16_wire (hi : front.length = i) (old : List UInt8) (hold : old.length = 2)
    (v : UInt16) (back : List UInt8) :
    store16 (front ++ (old ++ back)) i (bswap16 v) = some (front ++ (wire v ++ back)) := by
  have hv := v.toNat_lt
  obtain ⟨low, high, rfl⟩ := List.length_eq_two.mp hold
  subst hi
  have hlow : UInt8.ofNat (bswap16 v).toNat = .ofNat (v.toNat / 256) := by
    apply UInt8.toNat.inj
    rw [toNat_bswap16, UInt8.toNat_ofNat', UInt8.toNat_ofNat']
    omega
  have hhigh : UInt8.ofNat ((bswap16 v).toNat / 256) = .ofNat v.toNat := by
    apply UInt8.toNat.inj
    have hdiv : v.toNat / 256 < 256 := by omega
    have hswap : (v.toNat % 256 * 256 + v.toNat / 256) / 256 = v.toNat % 256 := by omega
    rw [toNat_bswap16, UInt8.toNat_ofNat', UInt8.toNat_ofNat', hswap]
    omega
  refine (store16_append front back low high _).trans ?_
  rw [hlow, hhigh]
  rfl

@[simp] theorem length_wire (v : UInt16) : (wire v).length = 2 := rfl

/-- Reading the first bytes of a packet. -/
theorem loadBytes_front (hi : bytes.length = i) (back : List UInt8) :
    loadBytes (bytes ++ back) 0 i = some bytes :=
  loadBytes_append (Eq.refl ([] : List UInt8).length) hi back

/-- Writing over the first bytes of a packet. -/
theorem storeBytes_front {old : List UInt8} (hold : old.length = bytes.length) (back : List UInt8) :
    storeBytes (old ++ back) 0 bytes = some (bytes ++ back) :=
  storeBytes_append (Eq.refl ([] : List UInt8).length) hold back

/-- Which types announce a tag, in network order. -/
theorem protoIsVlan_bswap16 (type : UInt16) :
    protoIsVlan (bswap16 type) = true ↔ VlanType type := by
  rw [protoIsVlan, decide_eq_true_iff, eq_bswap16_iff, eq_bswap16_iff, bswap16_bswap16]
  rfl

theorem protoIsVlan_bswap16_eq_false {type : UInt16} (htype : ¬VlanType type) :
    protoIsVlan (bswap16 type) = false := by
  rw [Bool.eq_false_iff, Ne, protoIsVlan_bswap16]
  exact htype

/-- The start of the packet moves over its first bytes. -/
theorem bpfXdpAdjustHead_forward (hi : front.length = i) (hback : 14 ≤ back.length) :
    bpfXdpAdjustHead ⟨headroom, front ++ back⟩ i = some ⟨headroom ++ front, back⟩ := by
  subst hi
  have hstart : (headroom.length + (front.length : ℤ)).toNat = (headroom ++ front).length := by
    rw [List.length_append]
    omega
  have hfits : ¬(headroom.length + (front.length : ℤ) < 0 ∨
      headroom.length + (front.length : ℤ) + 14 > (headroom ++ (front ++ back)).length) := by
    rw [List.length_append, List.length_append]
    omega
  rw [bpfXdpAdjustHead]
  simp only [hstart]
  rw [if_neg hfits, ← List.append_assoc, List.take_left, List.drop_left]

/-- The start of the packet moves back over the last bytes of the room. -/
theorem bpfXdpAdjustHead_back (hi : stale.length = i) (hpacket : 14 ≤ packet.length) :
    bpfXdpAdjustHead ⟨headroom ++ stale, packet⟩ (-i) = some ⟨headroom, stale ++ packet⟩ := by
  subst hi
  have hstart : ((headroom ++ stale).length + -(stale.length : ℤ)).toNat = headroom.length := by
    rw [List.length_append]
    omega
  have hfits : ¬((headroom ++ stale).length + -(stale.length : ℤ) < 0 ∨
      (headroom ++ stale).length + -(stale.length : ℤ) + 14 >
        (headroom ++ stale ++ packet).length) := by
    rw [List.length_append, List.length_append]
    omega
  rw [bpfXdpAdjustHead]
  simp only [hstart]
  rw [if_neg hfits, List.append_assoc, List.take_left, List.drop_left]

/-- There has to be room for the packet to grow. -/
theorem bpfXdpAdjustHead_full (hi : headroom.length < i) :
    bpfXdpAdjustHead ⟨headroom, packet⟩ (-i) = none := by
  have hstart : headroom.length + -(i : ℤ) < 0 := by omega
  exact if_pos (.inl hstart)

/-- A tag is put between the addresses and what followed them. -/
theorem vlanTagPush_eq (headroom : List UInt8) {addresses : List UInt8} (hstale : stale.length = 4)
    (haddresses : addresses.length = 12) (type : UInt16) (back : List UInt8) (vlid : ℤ) :
    vlanTagPush ⟨headroom ++ stale, addresses ++ (wire type ++ back)⟩ vlid =
      some (0, ⟨headroom, addresses ++
        (wire (Tag.of vlid).tpid ++ (wire (Tag.of vlid).tci ++ (wire type ++ back)))⟩) := by
  have hlast : (addresses.drop 10).length = 2 := by simp [haddresses]
  have hheader : (addresses ++ wire type).length = 14 := by simp [haddresses]
  have htag : (addresses ++ wire type ++ wire (Tag.of vlid).tci).length = 16 := by
    simp [haddresses]
  have hload := loadBytes_front hheader back
  have hadjust : bpfXdpAdjustHead ⟨headroom ++ stale, addresses ++ (wire type ++ back)⟩ (-4) =
      some ⟨headroom, stale ++ (addresses ++ (wire type ++ back))⟩ :=
    bpfXdpAdjustHead_back hstale (by simp [haddresses]; omega)
  -- The header is copied over the room and over the addresses except for their last two bytes.
  have hcopy : storeBytes (stale ++ (addresses ++ (wire type ++ back))) 0 (addresses ++ wire type) =
      some (addresses ++ wire type ++ (addresses.drop 10 ++ (wire type ++ back))) := by
    have hsplit : stale ++ (addresses ++ (wire type ++ back)) =
        stale ++ addresses.take 10 ++ (addresses.drop 10 ++ (wire type ++ back)) := by
      rw [List.append_assoc, ← List.append_assoc (addresses.take 10), List.take_append_drop]
    rw [hsplit]
    exact storeBytes_front (by simp [hstale, haddresses]) _
  have htci := store16_wire hheader (addresses.drop 10) hlast (Tag.of vlid).tci (wire type ++ back)
  have htype := load16_wire haddresses type (wire (Tag.of vlid).tci ++ (wire type ++ back))
  have hinner := store16_wire htag (wire type) rfl type back
  have houter := store16_wire haddresses (wire type) rfl 0x8100
    (wire (Tag.of vlid).tci ++ (wire type ++ back))
  simp only [List.append_assoc, Tag.of] at hload hcopy htci htype hinner houter ⊢
  rw [vlanTagPush, hload, Option.bind_some, hadjust]
  dsimp only
  rw [if_neg (by simp [hstale, haddresses]; omega), hcopy, Option.bind_some,
    if_neg (by simp [haddresses]; omega), htci, Option.bind_some, htype, Option.bind_some, hinner,
    Option.bind_some, houter]
  rfl

/-- Without room a tag is not put in. -/
theorem vlanTagPush_full (hroom : headroom.length < 4) (hpacket : 14 ≤ packet.length) (vlid : ℤ) :
    vlanTagPush ⟨headroom, packet⟩ vlid = some (-1, ⟨headroom, packet⟩) := by
  have hadjust : bpfXdpAdjustHead ⟨headroom, packet⟩ (-4) = none := bpfXdpAdjustHead_full hroom
  rw [vlanTagPush, loadBytes, if_pos (by omega), Option.bind_some, hadjust]

/-- The outermost tag is taken from between the addresses and what followed it. -/
theorem vlanTagPop_eq (headroom : List UInt8) {addresses : List UInt8}
    (haddresses : addresses.length = 12) (tag : Tag) (type : UInt16) (back : List UInt8) :
    vlanTagPop ⟨headroom, addresses ++ (wire tag.tpid ++ (wire tag.tci ++ (wire type ++ back)))⟩ =
      some ((tag.tci.toNat : ℤ),
        ⟨headroom ++ addresses.take 4, addresses ++ (wire type ++ back)⟩) := by
  have hheader : (addresses ++ wire tag.tpid).length = 14 := by simp [haddresses]
  have htags : (addresses ++ wire tag.tpid ++ wire tag.tci).length = 16 := by simp [haddresses]
  have houter := load16_wire haddresses tag.tpid (wire tag.tci ++ (wire type ++ back))
  have hvlan := (protoIsVlan_bswap16 tag.tpid).mpr tag.vlanType
  have htci := load16_wire hheader tag.tci (wire type ++ back)
  have hinner := load16_wire htags type back
  have hload := loadBytes_front hheader (wire tag.tci ++ (wire type ++ back))
  have hadjust : bpfXdpAdjustHead ⟨headroom, addresses ++ (wire tag.tpid ++ (wire tag.tci ++
      (wire type ++ back)))⟩ 4 = some ⟨headroom ++ addresses.take 4, addresses.drop 4 ++
        (wire tag.tpid ++ (wire tag.tci ++ (wire type ++ back)))⟩ := by
    conv_lhs => rw [← List.take_append_drop 4 addresses, List.append_assoc]
    exact bpfXdpAdjustHead_forward (by simp [haddresses]) (by simp [haddresses]; omega)
  -- The header is copied over what was behind the first four bytes of the addresses.
  have hold : (addresses.drop 4 ++ wire tag.tpid ++ wire tag.tci ++ wire type).length =
      (addresses ++ wire tag.tpid).length := by
    simp [haddresses]
  have hcopy := storeBytes_front hold back
  have hstore := store16_wire haddresses (wire tag.tpid) rfl type back
  simp only [List.append_assoc] at htci hinner hload hcopy
  rw [vlanTagPop, houter, Option.bind_some, hvlan, if_neg (by simp),
    if_neg (by simp [haddresses]; omega), htci, Option.bind_some, hinner, Option.bind_some, hload,
    Option.bind_some, hadjust]
  dsimp only
  rw [if_neg (by simp [haddresses]; omega), hcopy, Option.bind_some, hstore, bswap16_bswap16]
  rfl

/-- Without a tag nothing is taken. -/
theorem vlanTagPop_untagged {addresses : List UInt8} (haddresses : addresses.length = 12)
    {type : UInt16} (htype : ¬VlanType type) (back : List UInt8) :
    vlanTagPop ⟨headroom, addresses ++ (wire type ++ back)⟩ =
      some (-1, ⟨headroom, addresses ++ (wire type ++ back)⟩) := by
  rw [vlanTagPop, load16_wire haddresses type back, Option.bind_some,
    protoIsVlan_bswap16_eq_false htype, if_pos (by simp)]

/-! ### Whole sequences of calls -/

/-- What follows the addresses starts with a type. -/
theorem tagged_eq (tags : List Tag) (type : UInt16) (payload : List UInt8) :
    tagged tags type payload = wire (headType tags type) ++ afterType tags type payload := by
  cases tags <;> rfl

section Calls

variable {addresses : List UInt8} {type : UInt16} (payload : List UInt8)

/-- One call acts on the bytes as on the stack. -/
theorem tagCall_eq (haddresses : addresses.length = 12) (htype : ¬VlanType type)
    (headroom : List UInt8) (tags : List Tag) (call : TagCall) {value : ℤ} {room : ℕ}
    {tags' : List Tag} (hstack : stackCall headroom.length tags call = (value, room, tags')) :
    ∃ headroom', headroom'.length = room ∧
      tagCall ⟨headroom, addresses ++ tagged tags type payload⟩ call =
        some (value, ⟨headroom', addresses ++ tagged tags' type payload⟩) := by
  cases call with
  | push vlid =>
    rw [stackCall] at hstack
    split_ifs at hstack with hroom
    · cases hstack
      have hlength : 14 ≤ (addresses ++ tagged tags type payload).length := by
        rw [tagged_eq, List.length_append, List.length_append, length_wire]
        omega
      exact ⟨headroom, rfl, vlanTagPush_full hroom hlength vlid⟩
    · cases hstack
      -- The last four bytes of the room are what the packet grows into.
      have hstale : (headroom.drop (headroom.length - 4)).length = 4 := by
        rw [List.length_drop]
        omega
      refine ⟨headroom.take (headroom.length - 4), by simp, ?_⟩
      have hpush := vlanTagPush_eq (headroom.take (headroom.length - 4)) hstale haddresses
        (headType tags type) (afterType tags type payload) vlid
      rw [List.take_append_drop, ← tagged_eq] at hpush
      exact hpush
  | pop =>
    cases tags with
    | nil =>
      cases hstack
      exact ⟨headroom, rfl, vlanTagPop_untagged haddresses htype payload⟩
    | cons tag tags =>
      cases hstack
      refine ⟨headroom ++ addresses.take 4, by simp [haddresses], ?_⟩
      have hpop := vlanTagPop_eq headroom haddresses tag (headType tags' type)
        (afterType tags' type payload)
      rw [← tagged_eq] at hpop
      exact hpop

/-- Any sequence of calls acts on the bytes as on the stack. -/
theorem tagCalls_eq (haddresses : addresses.length = 12) (htype : ¬VlanType type)
    (headroom : List UInt8) (tags : List Tag) (calls : List TagCall) :
    ∃ headroom', headroom'.length = (stackCalls headroom.length tags calls).2.1 ∧
      tagCalls ⟨headroom, addresses ++ tagged tags type payload⟩ calls =
        some ((stackCalls headroom.length tags calls).1, ⟨headroom',
          addresses ++ tagged (stackCalls headroom.length tags calls).2.2 type payload⟩) := by
  induction calls generalizing headroom tags with
  | nil => exact ⟨headroom, rfl, rfl⟩
  | cons call calls ih =>
    match hstack : stackCall headroom.length tags call with
    | (value, room, tags') =>
      obtain ⟨middle, rfl, hcall⟩ := tagCall_eq payload haddresses htype headroom tags call hstack
      obtain ⟨headroom', hlength, hcalls⟩ := ih middle tags'
      refine ⟨headroom', ?_, ?_⟩
      · simpa only [stackCalls, hstack] using hlength
      · simp only [tagCalls, hcall, Option.bind_some, hcalls, Option.map_some, stackCalls, hstack]

end Calls

/-- **The tags of a frame are a stack.** Any sequence of pushes and pops, on any frame whose tags
are complete and with any room in front of it, returns what it returns on the stack of the tags,
and leaves the bytes of the frame with the tags that are then on the stack. -/
theorem vlan_tags_are_a_stack (f : TaggedFrame) (headroom : List UInt8) (calls : List TagCall) :
    ∃ headroom', headroom'.length = (stackCalls headroom.length f.tags calls).2.1 ∧
      tagCalls ⟨headroom, f.bytes⟩ calls =
        some ((stackCalls headroom.length f.tags calls).1, ⟨headroom',
          { f with tags := (stackCalls headroom.length f.tags calls).2.2 }.bytes⟩) :=
  tagCalls_eq f.payload f.length_addresses f.not_vlanType headroom f.tags calls

/-! ### The parser on tagged frames -/

/-- The loop collects as many tags as it has rounds. -/
theorem collectVlans_eq {type : UInt16} (htype : ¬VlanType type) (payload : List UInt8)
    (left : ℕ) (front : List UInt8) (tags : List Tag) (collected rest : List UInt16)
    (hrest : left ≤ rest.length) :
    collectVlans (front ++ afterType tags type payload) left collected.length
        (bswap16 (headType tags type)) front.length (some (collected ++ rest)) =
      some (bswap16 (headType (tags.drop left) type), front.length + 4 * (tags.take left).length,
        some (collected ++
          ((tags.take left).map Tag.vid ++ rest.drop (tags.take left).length))) := by
  induction left generalizing front tags collected rest with
  | zero => simp [collectVlans]
  | succ left ih =>
    match tags, rest, hrest with
    | [], rest, _ =>
      simp [collectVlans, headType, protoIsVlan_bswap16_eq_false htype]
    | tag :: tags, old :: rest, hrest =>
      have hvlan := (protoIsVlan_bswap16 tag.tpid).mpr tag.vlanType
      have hpacket : front ++ afterType (tag :: tags) type payload =
          front ++
            (wire tag.tci ++ (wire (headType tags type) ++ afterType tags type payload)) := by
        rw [← tagged_eq]
        rfl
      have hspace : ¬front.length + 4 > (front ++ afterType (tag :: tags) type payload).length := by
        rw [hpacket]
        simp
        omega
      have htci : load16 (front ++ afterType (tag :: tags) type payload) front.length =
          some (bswap16 tag.tci) := by
        rw [hpacket]
        exact load16_wire rfl tag.tci _
      have hinner : load16 (front ++ afterType (tag :: tags) type payload) (front.length + 2) =
          some (bswap16 (headType tags type)) := by
        rw [hpacket, ← List.append_assoc]
        exact load16_wire (by simp) _ _
      have hrec := ih (front ++ (wire tag.tci ++ wire (headType tags type))) tags
        (collected ++ [tag.vid]) rest (Nat.le_of_succ_le_succ hrest)
      rw [collectVlans, headType, hvlan, if_neg (by simp), if_neg hspace, hinner, Option.bind_some]
      dsimp only
      rw [htci, Option.bind_some, if_pos (by simp), bswap16_bswap16]
      have hset : (collected ++ old :: rest).set collected.length (tag.tci &&& 0x0fff) =
          collected ++ [tag.vid] ++ rest := by
        simp [Tag.vid]
      have hfront : (front ++ (wire tag.tci ++ wire (headType tags type))).length =
          front.length + 4 := by
        simp
      have hcollected : (collected ++ [tag.vid]).length = collected.length + 1 := by
        simp
      rw [hfront, hcollected, List.append_assoc front, List.append_assoc (wire tag.tci),
        ← hpacket] at hrec
      rw [hset, hrec]
      simp [Nat.mul_add, Nat.add_assoc, Nat.add_comm 4]

/-- **The parser reads the top of the stack.** On every frame the parser collects the ids of the
two outermost tags, leaves the other entries of the array alone, and returns the type behind those
tags with the cursor behind it. -/
theorem parseEthhdrVlan_eq_top (f : TaggedFrame) (id : List UInt16)
    (hid : vlanMaxDepth ≤ id.length) :
    parseEthhdrVlan f.bytes 0 (some id) =
      some (((bswap16 (headType (f.tags.drop 2) f.type)).toNat : ℤ),
        14 + 4 * (f.tags.take 2).length,
        some ((f.tags.take 2).map Tag.vid ++ id.drop (f.tags.take 2).length)) := by
  have hbytes : f.bytes = f.addresses ++ wire (headType f.tags f.type) ++
      afterType f.tags f.type f.payload := by
    rw [TaggedFrame.bytes, tagged_eq, List.append_assoc]
  have hheader : (f.addresses ++ wire (headType f.tags f.type)).length = 14 := by
    simp [f.length_addresses]
  have hlength : ¬0 + 14 > f.bytes.length := by
    rw [hbytes, List.length_append]
    omega
  have hload : load16 f.bytes 12 = some (bswap16 (headType f.tags f.type)) := by
    rw [hbytes, List.append_assoc]
    exact load16_wire f.length_addresses _ _
  have hcollect := collectVlans_eq f.not_vlanType f.payload vlanMaxDepth
    (f.addresses ++ wire (headType f.tags f.type)) f.tags [] id hid
  rw [← hbytes, hheader] at hcollect
  rw [parseEthhdrVlan, if_neg hlength, Nat.zero_add, hload, Option.bind_some, Nat.zero_add]
  exact congrArg (Option.map _) hcollect

/-- A frame with three tags. -/
def threeTags : TaggedFrame where
  addresses := List.replicate 12 0
  tags := [.of 5, .of 4103, .of 9]
  type := 0x0800
  payload := []
  length_addresses := rfl
  not_vlanType := fun h => by
    rw [VlanType] at h
    revert h
    decide

/-- The ids of the first two tags are collected, without the priority of the second one. -/
theorem parseEthhdrVlan_eq_top_threeTags : vlanMaxDepth ≤ [1, 2].length ∧
    parseEthhdrVlan threeTags.bytes 0 (some [1, 2]) = some (129, 22, some [5, 7]) :=
  ⟨by decide, parseEthhdrVlan_eq_top threeTags [1, 2] (by decide)⟩

/-- The number in a field. -/
theorem field16_wire (hi : front.length = i) (v : UInt16) (back : List UInt8) :
    field16 (front ++ (wire v ++ back)) i = v.toNat := by
  have hv := v.toNat_lt
  have hdiv : v.toNat / 256 < 256 := by omega
  rw [← Nat.add_zero i, ← field16_drop, List.drop_left' hi]
  change (UInt8.ofNat (v.toNat / 256)).toNat * 256 + (UInt8.ofNat v.toNat).toNat = v.toNat
  rw [UInt8.toNat_ofNat', UInt8.toNat_ofNat', Nat.mod_eq_of_lt hdiv]
  omega

/-- The types that announce a tag, as numbers. -/
theorem vlanType_iff (type : UInt16) :
    VlanType type ↔ type.toNat = 0x8100 ∨ type.toNat = 0x88a8 := by
  rw [VlanType, ← UInt16.toNat_inj, ← UInt16.toNat_inj]
  rfl

/-- Some of the outermost tags are taken off. -/
theorem untagged_afterType {type : UInt16} (htype : ¬VlanType type) (payload : List UInt8)
    (n : ℕ) (tags : List Tag) :
    untagged n (headType tags type).toNat (afterType tags type payload) =
      ((headType (tags.drop n) type).toNat, afterType (tags.drop n) type payload) := by
  induction n generalizing tags with
  | zero => rfl
  | succ n ih =>
    cases tags with
    | nil =>
      rw [untagged, if_neg fun h => htype ((vlanType_iff type).mpr h.1)]
      rfl
    | cons tag tags =>
      have hlength : 4 ≤ (afterType (tag :: tags) type payload).length := by
        rw [afterType, tagged_eq]
        simp
        omega
      have hdrop : (afterType (tag :: tags) type payload).drop 4 = afterType tags type payload := by
        rw [afterType, tagged_eq]
        rfl
      have hfield : field16 (afterType (tag :: tags) type payload) 2 =
          (headType tags type).toNat := by
        rw [afterType, tagged_eq]
        exact field16_wire rfl _ _
      rw [untagged, if_pos ⟨(vlanType_iff tag.tpid).mp tag.vlanType, hlength⟩, hfield, hdrop]
      exact ih tags

/-- The IP packet in a tagged frame is found behind two tags and no more. -/
theorem ipContent_bytes (f : TaggedFrame) :
    ipContent f.bytes = if f.tags.length ≤ 2 then ipContent f.untag.bytes else none := by
  have htop : ∀ tags : List Tag,
      untagged 2 (field16 (f.addresses ++ tagged tags f.type f.payload) 12)
        ((f.addresses ++ tagged tags f.type f.payload).drop 14) =
        ((headType (tags.drop 2) f.type).toNat, afterType (tags.drop 2) f.type f.payload) := by
    intro tags
    have hheader : (f.addresses ++ wire (headType tags f.type)).length = 14 := by
      simp [f.length_addresses]
    rw [tagged_eq, field16_wire f.length_addresses, ← List.append_assoc, List.drop_left' hheader]
    exact untagged_afterType f.not_vlanType f.payload 2 tags
  rw [ipContent, ipContent, TaggedFrame.bytes, htop, TaggedFrame.untag, TaggedFrame.bytes, htop]
  split_ifs with htags
  · rw [List.drop_eq_nil_of_le htags]
    rfl
  · -- The type behind the first two tags is that of a third one.
    obtain ⟨tag, tags, hdrop⟩ := List.exists_cons_of_length_pos
      (show 0 < (f.tags.drop 2).length by rw [List.length_drop]; omega)
    have htype : (headType (tag :: tags) f.type).toNat = 0x8100 ∨
        (headType (tag :: tags) f.type).toNat = 0x88a8 :=
      (vlanType_iff tag.tpid).mp tag.vlanType
    rw [hdrop]
    dsimp only
    rw [if_neg (by omega), if_neg (by omega)]

/-- **Three tags hide a port.** The port blocker does with a frame of at most two tags what it does
with the frame without its tags, and lets every frame with more tags pass. -/
theorem port_blocker_on_tags (f : TaggedFrame) (rxcnt : Option UInt64) :
    ∃ result plain, xdpBlockPortFunc f.bytes rxcnt = some result ∧
      xdpBlockPortFunc f.untag.bytes rxcnt = some plain ∧
      result.action = if f.tags.length ≤ 2 then plain.action else .pass := by
  have hlength : ∀ f : TaggedFrame, 14 ≤ f.bytes.length := by
    intro f
    rw [TaggedFrame.bytes, tagged_eq, List.length_append, List.length_append, f.length_addresses,
      length_wire]
    omega
  obtain ⟨result, hresult, haction⟩ := @xdpBlockPortFunc_action f.bytes rxcnt (hlength f)
  obtain ⟨plain, hplain, haction'⟩ := @xdpBlockPortFunc_action f.untag.bytes rxcnt (hlength f.untag)
  refine ⟨result, plain, hresult, hplain, ?_⟩
  rw [haction, haction', ipContent_bytes]
  split_ifs
  · rfl
  · rfl

end Hack.Xdp
