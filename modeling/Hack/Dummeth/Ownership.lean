import Hack.Custody
import Hack.Dummeth.Threads
import Hack.LinkedList

/-!
# Who owns a packet

Every allocated packet that can still be reached is in one place: the pool of a
device, the receive queue of a device, or the hands of an operation in progress.
A ledger gives the addresses of each of the four lists. An operation takes a
packet off a list into its hands, or links the packet in its hands into a list,
and these two moves, together with freeing a pool and allocating new packets, are
all that happens to the lists. Each move keeps the ledger free of duplicates, the
packets allocated, and the owner recorded in a packet: a packet in a pool belongs
to that device, one in a receive queue to the other device.
-/

namespace Hack.Dummeth

open LinkedList Function

/-- The lists a packet can be in. -/
inductive Place
  | pool (d : DevId)
  | rx (d : DevId)
deriving DecidableEq

/-- The four lists. -/
def Place.all : List Place := [.pool .dev0, .pool .dev1, .rx .dev0, .rx .dev1]

/-- The device whose packets are in a list. -/
def Place.owner : Place → DevId
  | .pool d => d
  | .rx d => d.twin

/-- The head pointer of a list. -/
def Devices.head (s : Devices) : Place → Option Addr
  | .pool d => (s.priv d).ppool
  | .rx d => (s.priv d).rxQueue

/-- The device recorded in an allocated packet. -/
def Devices.devOf (s : Devices) (a : Addr) : Option DevId := (s.heap.lookup a).map Packet.dev

/-- The addresses in each list. -/
abbrev Ledger := Place → List Addr

/-- All addresses of a ledger. -/
def Ledger.addresses (ledger : Ledger) : List Addr := Place.all.flatMap ledger

/-- Changing one list of a ledger exchanges its addresses. -/
theorem Ledger.count_update (ledger : Ledger) (p : Place) (l : List Addr) (a : Addr) :
    (Ledger.addresses (update ledger p l)).count a + (ledger p).count a =
      ledger.addresses.count a + l.count a := by
  rcases p with (- | -) | (- | -) <;>
    simp [Ledger.addresses, Place.all, update] <;> omega

/-- Every list of a ledger is part of its addresses. -/
theorem Ledger.mem_addresses {ledger : Ledger} {p : Place} {a : Addr} (ha : a ∈ ledger p) :
    a ∈ ledger.addresses := by
  rcases p with (- | -) | (- | -) <;> simp [Ledger.addresses, Place.all, ha]

/-- The ledger describes the lists in memory, and together with the packets in the
hands of operations it is free of duplicates. -/
structure Owned (s : Devices) (ledger : Ledger) (hands : List Addr) : Prop where
  /-- Each list is linked from its head. -/
  chain : ∀ p, Chain Packet.next (fun a => s.heap.lookup a) (s.head p) (ledger p)
  /-- No packet is in two places, or twice in one. -/
  nodup : (ledger.addresses ++ hands).Nodup
  /-- The packets of each list belong to its device. -/
  owner : ∀ p, ∀ a ∈ ledger p, s.devOf a = some p.owner
  /-- Packets in hands are allocated. -/
  allocated : ∀ a ∈ hands, (s.devOf a).isSome

variable {s s' : Devices} {ledger : Ledger} {hands : List Addr} {p : Place} {a : Addr}
  {pkt : Packet} {n i : ℕ} {heap : Heap} {d : DevId} {kmalloc : ℕ → Option Addr}
  {ppool : Option Addr} {r : Heap × Option Addr} {cfg : Config}

section Owned

variable (h : Owned s ledger hands)
include h

/-- What is owned only depends on the memory and the head pointers. -/
theorem Owned.congr (hheap : s'.heap = s.heap) (hhead : s'.head = s.head) :
    Owned s' ledger hands := by
  refine ⟨fun p => ?_, h.nodup, fun p a ha => ?_, fun a ha => ?_⟩
  · rw [hheap, hhead]
    exact h.chain p
  · rw [Devices.devOf, hheap]
    exact h.owner p a ha
  · rw [Devices.devOf, hheap]
    exact h.allocated a ha

/-- The order of the packets in hands does not matter. -/
theorem Owned.perm {hands' : List Addr} (hperm : hands.Perm hands') :
    Owned s ledger hands' :=
  ⟨h.chain, (hperm.append_left _).nodup_iff.mp h.nodup, h.owner,
    fun a ha => h.allocated a (hperm.mem_iff.mpr ha)⟩

/-- Taking the first packet off a list moves it into the hands of the operation. -/
theorem Owned.pop (hhead : s.head p = some a) (hpkt : s.heap.lookup a = some pkt)
    (hheap : s'.heap = s.heap) (hhead' : s'.head = update s.head p pkt.next) :
    s.devOf a = some p.owner ∧ ∃ ledger', Owned s' ledger' (a :: hands) := by
  have hchain := h.chain p
  rw [hhead] at hchain
  obtain ⟨pkt', rest, hpkt', hlist, hrest⟩ := hchain.exists_cons
  cases hpkt.symm.trans hpkt'
  have ha : a ∈ ledger p := hlist ▸ List.mem_cons_self
  refine ⟨h.owner p a ha, update ledger p rest, fun q => ?_, ?_, fun q b hb => ?_, ?_⟩
  · rw [hheap, hhead']
    rcases eq_or_ne q p with rfl | hq
    · simpa using hrest
    · simpa [hq] using h.chain q
  · refine List.nodup_iff_count_le_one.mpr fun b => ?_
    have hcount := ledger.count_update p rest b
    have hone := List.nodup_iff_count_le_one.mp h.nodup b
    rw [hlist] at hcount
    simp only [List.count_append, List.count_cons] at hcount hone ⊢
    omega
  · rw [Devices.devOf, hheap]
    rcases eq_or_ne q p with rfl | hq
    · refine h.owner q b (hlist ▸ List.mem_cons_of_mem _ ?_)
      simpa using hb
    · exact h.owner q b (by simpa [hq] using hb)
  · intro b hb
    rw [Devices.devOf, hheap]
    rcases List.mem_cons.mp hb with rfl | hb
    · exact Option.isSome_of_eq_some (h.owner p b ha)
    · exact h.allocated b hb

/-- Linking a packet that is nowhere in front of a list. -/
theorem Owned.link (ha : a ∉ ledger.addresses ++ hands) (hnext : pkt.next = s.head p)
    (hdev : pkt.dev = p.owner) (hheap : s'.heap = s.heap.insert a pkt)
    (hhead : s'.head = update s.head p (some a)) : ∃ ledger', Owned s' ledger' hands := by
  have hother : ∀ b ≠ a, s'.heap.lookup b = s.heap.lookup b := fun b hb => by
    rw [hheap, AList.lookup_insert_ne hb]
  have hself : s'.heap.lookup a = some pkt := by rw [hheap, AList.lookup_insert]
  have hne : ∀ b ∈ ledger.addresses ++ hands, b ≠ a := fun b hb heq => ha (heq ▸ hb)
  have hledger : ∀ q, ∀ b ∈ ledger q, b ≠ a := fun q b hb =>
    hne b (List.mem_append_left _ (Ledger.mem_addresses hb))
  have hold : ∀ q, Chain Packet.next (fun a => s'.heap.lookup a) (s.head q) (ledger q) :=
    fun q => (h.chain q).congr fun b hb => by rw [hother b (hledger q b hb)]
  refine ⟨update ledger p (a :: ledger p), fun q => ?_, ?_, fun q b hb => ?_, ?_⟩
  · rw [hhead]
    rcases eq_or_ne q p with rfl | hq
    · have hlinked : Chain Packet.next (fun a => s'.heap.lookup a) (some a) (a :: ledger q) :=
        .cons hself (hnext ▸ hold q)
      simpa using hlinked
    · simpa [hq] using hold q
  · refine List.nodup_iff_count_le_one.mpr fun b => ?_
    have hcount := ledger.count_update p (a :: ledger p) b
    have hone := List.nodup_iff_count_le_one.mp h.nodup b
    have hzero := List.count_eq_zero.mpr ha
    simp only [List.count_append, List.count_cons, beq_iff_eq] at hcount hone hzero ⊢
    split_ifs at hcount with hb
    · subst hb
      omega
    · omega
  · rcases eq_or_ne q p with rfl | hq
    · rcases List.mem_cons.mp (by simpa using hb) with rfl | hb
      · simp [Devices.devOf, hself, hdev]
      · rw [Devices.devOf, hother b (hledger q b hb)]
        exact h.owner q b hb
    · have hb : b ∈ ledger q := by simpa [hq] using hb
      rw [Devices.devOf, hother b (hledger q b hb)]
      exact h.owner q b hb
  · intro b hb
    rw [Devices.devOf, hother b (hne b (List.mem_append_right _ hb))]
    exact h.allocated b hb

end Owned

/-- A packet in hands is in no list and not held twice. -/
theorem Owned.drop (h : Owned s ledger (a :: hands)) :
    a ∉ ledger.addresses ++ hands ∧ Owned s ledger hands := by
  have hnodup := (List.perm_middle.nodup_iff).mp h.nodup
  rw [List.nodup_cons] at hnodup
  refine ⟨hnodup.1, h.chain, hnodup.2, h.owner, fun b hb => ?_⟩
  exact h.allocated b (List.mem_cons_of_mem _ hb)

/-- Writing the frame of a packet moves nothing. -/
theorem Owned.write {pkt' : Packet} (h : Owned s ledger hands) (hpkt : s.heap.lookup a = some pkt)
    (hnext : pkt'.next = pkt.next) (hdev : pkt'.dev = pkt.dev)
    (hheap : s'.heap = s.heap.insert a pkt') (hhead : s'.head = s.head) :
    Owned s' ledger hands := by
  have hlookup : ∀ b, (s'.heap.lookup b).map Packet.next = (s.heap.lookup b).map Packet.next ∧
      s'.devOf b = s.devOf b := by
    intro b
    rw [Devices.devOf, Devices.devOf, hheap]
    rcases eq_or_ne b a with rfl | hb
    · simp [hpkt, hnext, hdev]
    · simp [AList.lookup_insert_ne hb]
  refine ⟨fun p => ?_, h.nodup, fun p b hb => ?_, fun b hb => ?_⟩
  · rw [hhead]
    exact (h.chain p).congr fun b _ => (hlookup b).1
  · rw [(hlookup b).2]
    exact h.owner p b hb
  · rw [(hlookup b).2]
    exact h.allocated b hb

/-- Freeing a pool frees exactly the packets linked in it. -/
theorem lookup_teardownPoolFrom {heap' : Heap} {head : Option Addr} {l : List Addr}
    (hchain : Chain Packet.next (fun a => heap.lookup a) head l) (hnodup : l.Nodup)
    (hfreed : teardownPoolFrom n heap head = some heap') (a : Addr) :
    heap'.lookup a = if a ∈ l then none else heap.lookup a := by
  induction l generalizing n heap head with
  | nil =>
    cases hchain
    simp only [teardownPoolFrom, Option.some_inj] at hfreed
    simp [hfreed]
  | cons b rest ih =>
    obtain ⟨hb, hrest⟩ := List.nodup_cons.mp hnodup
    cases hchain with
    | cons hread hchain =>
      cases n with
      | zero => simp [teardownPoolFrom] at hfreed
      | succ n =>
        simp only [teardownPoolFrom, hread, Option.bind_some] at hfreed
        have herased : ∀ c ≠ b, (heap.erase b).lookup c = heap.lookup c := fun c hc =>
          AList.lookup_erase_ne hc
        have hchain' : Chain Packet.next (fun a => (heap.erase b).lookup a) _ rest :=
          hchain.congr fun c hc => by rw [herased c fun h => hb (h ▸ hc)]
        rw [ih hchain' hrest hfreed]
        rcases eq_or_ne a b with rfl | hab
        · simp
        · simp [hab, herased a hab]

/-- Everything that is owned is allocated. -/
theorem Owned.isSome_devOf (h : Owned s ledger hands) (ha : a ∈ ledger.addresses ++ hands) :
    (s.devOf a).isSome := by
  rcases List.mem_append.mp ha with ha | ha
  · obtain ⟨p, -, ha⟩ := List.mem_flatMap.mp ha
    exact Option.isSome_of_eq_some (h.owner p a ha)
  · exact h.allocated a ha

/-- The memory of the devices with a new pool. -/
@[simp]
theorem Devices.heap_withPool (s : Devices) (d : DevId) (heap : Heap) (ppool : Option Addr) :
    (s.withPool d heap ppool).heap = heap := rfl

/-- A new pool changes one head pointer. -/
@[simp]
theorem Devices.head_withPool (s : Devices) (d : DevId) (heap : Heap) (ppool : Option Addr) :
    (s.withPool d heap ppool).head = update s.head (.pool d) ppool := by
  funext p
  cases p with
  | pool e =>
    rcases eq_or_ne e d with rfl | he
    · simp [Devices.head, Devices.withPool, Devices.modify]
    · simp [Devices.head, Devices.withPool, Devices.modify, he]
  | rx e =>
    rcases eq_or_ne e d with rfl | he
    · simp [Devices.head, Devices.withPool, Devices.modify]
    · simp [Devices.head, Devices.withPool, Devices.modify, he]

/-- Emptying one list of the ledger leaves its packets nowhere. -/
theorem Owned.not_mem_update (h : Owned s ledger hands) (ha : a ∈ ledger p) :
    a ∉ Ledger.addresses (update ledger p []) ++ hands := by
  have hcount := ledger.count_update p [] a
  have hone := List.nodup_iff_count_le_one.mp h.nodup a
  have hpos := List.count_pos_iff.mpr ha
  refine List.count_eq_zero.mp ?_
  simp only [List.count_append, List.count_nil] at hcount hone ⊢
  omega

/-- Each list of the ledger is free of duplicates. -/
theorem Owned.nodup_list (h : Owned s ledger hands) (p : Place) : (ledger p).Nodup := by
  refine List.nodup_iff_count_le_one.mpr fun a => ?_
  have hcount := ledger.count_update p [] a
  have hone := List.nodup_iff_count_le_one.mp h.nodup a
  simp only [List.count_append, List.count_nil] at hcount hone
  omega

/-- Freeing the pool of a device leaves the other lists and all hands as they are. -/
theorem Owned.of_teardownPool (h : Owned s ledger hands) (hs : teardownPool s d = some s') :
    Owned s' (update ledger (.pool d) []) hands ∧ s'.head (.pool d) = none ∧
      ∀ a ∈ hands, s'.devOf a = s.devOf a := by
  obtain ⟨heap, hfreed, rfl⟩ := Option.map_eq_some_iff.mp hs
  have hlookup := lookup_teardownPoolFrom (h.chain (.pool d)) (h.nodup_list _) hfreed
  have hkept : ∀ a ∈ Ledger.addresses (update ledger (.pool d) []) ++ hands,
      heap.lookup a = s.heap.lookup a := by
    intro a ha
    rw [hlookup, if_neg fun hmem => h.not_mem_update hmem ha]
  have hlist : ∀ p, ∀ a ∈ update ledger (.pool d) [] p,
      heap.lookup a = s.heap.lookup a ∧ p ≠ .pool d ∧ a ∈ ledger p := by
    intro p a ha
    have hp : p ≠ .pool d := by
      rintro rfl
      simp at ha
    exact ⟨hkept a (List.mem_append_left _ (Ledger.mem_addresses ha)), hp, by simpa [hp] using ha⟩
  refine ⟨⟨fun p => ?_, ?_, fun p a ha => ?_, fun a ha => ?_⟩, by simp, fun a ha => ?_⟩
  · rw [Devices.head_withPool]
    rcases eq_or_ne p (.pool d) with rfl | hp
    · simpa using Chain.nil
    · have hchain : Chain Packet.next (fun a => heap.lookup a) (s.head p) (ledger p) :=
        (h.chain p).congr fun a ha => by rw [(hlist p a (by simpa [hp] using ha)).1]
      simpa [hp] using hchain
  · refine List.nodup_iff_count_le_one.mpr fun a => ?_
    have hcount := ledger.count_update (.pool d) [] a
    have hone := List.nodup_iff_count_le_one.mp h.nodup a
    simp only [List.count_append, List.count_nil] at hcount hone ⊢
    omega
  · obtain ⟨hsame, -, hmem⟩ := hlist p a ha
    change (heap.lookup a).map Packet.dev = some p.owner
    rw [hsame]
    exact h.owner p a hmem
  · change ((heap.lookup a).map Packet.dev).isSome
    rw [hkept a (List.mem_append_right _ ha)]
    exact h.allocated a ha
  · change (heap.lookup a).map Packet.dev = _
    rw [hkept a (List.mem_append_right _ ha)]
    rfl

/-- Each packet of a new pool is fresh, so the loop links it in front of the pool. -/
theorem Owned.of_setupPoolFrom (h : Owned (s.withPool d heap ppool) ledger hands)
    (hr : setupPoolFrom d kmalloc n i heap ppool = some r) :
    (∃ ledger', Owned (s.withPool d r.1 r.2) ledger' hands) ∧
      ∀ a ∈ hands, (s.withPool d r.1 r.2).devOf a = (s.withPool d heap ppool).devOf a := by
  fun_induction setupPoolFrom d kmalloc n i heap ppool generalizing ledger with
  | case1 i heap ppool =>
    cases hr
    exact ⟨⟨ledger, h⟩, fun _ _ => rfl⟩
  | case2 n i heap ppool hnone =>
    cases hr
    exact ⟨⟨ledger, h⟩, fun _ _ => rfl⟩
  | case3 => cases hr
  | case4 n i heap ppool a ha hfresh ih =>
    have hlookup : heap.lookup a = none := AList.lookup_eq_none.mpr hfresh
    have hnew : a ∉ ledger.addresses ++ hands := by
      intro hmem
      simpa [Devices.devOf, hlookup] using h.isSome_devOf hmem
    have hlinked : ∃ ledger', Owned (s.withPool d (heap.insert a ⟨ppool, d, 0, []⟩) (some a))
        ledger' hands :=
      h.link (p := .pool d) hnew (by simp) rfl rfl (by simp)
    obtain ⟨ledger', h'⟩ := hlinked
    obtain ⟨howned, hframe⟩ := ih h' hr
    refine ⟨howned, fun b hb => (hframe b hb).trans ?_⟩
    have hb : b ≠ a := fun h => hnew (List.mem_append_right _ (h ▸ hb))
    simp [Devices.devOf, AList.lookup_insert_ne hb]

/-- Setting up a pool writes to new packets only. -/
theorem lookup_setupPoolFrom (hr : setupPoolFrom d kmalloc n i heap ppool = some r)
    (ha : (heap.lookup a).isSome) : r.1.lookup a = heap.lookup a := by
  fun_induction setupPoolFrom d kmalloc n i heap ppool with
  | case1 | case2 =>
    cases hr
    rfl
  | case3 => cases hr
  | case4 n i heap ppool b hb hfresh ih =>
    have hne : a ≠ b := by
      rintro rfl
      exact hfresh (AList.lookup_isSome.mp ha)
    rw [ih hr (by rwa [AList.lookup_insert_ne hne]), AList.lookup_insert_ne hne]

/-- A pool that is set up in place of an empty one. -/
theorem Owned.of_setupPool (h : Owned s ledger hands) (hhead : s.head (.pool d) = none)
    (hs : setupPool cfg s d kmalloc = some s') :
    (∃ ledger', Owned s' ledger' hands) ∧ ∀ a ∈ hands, s'.devOf a = s.devOf a := by
  obtain ⟨r, hr, rfl⟩ := Option.map_eq_some_iff.mp hs
  have hstart : Owned (s.withPool d s.heap none) ledger hands :=
    h.congr rfl (by rw [Devices.head_withPool, ← hhead, update_eq_self])
  exact hstart.of_setupPoolFrom hr

/-- Freeing the pool of a device and setting it up again touches nothing that is
owned elsewhere. -/
theorem Owned.lookup_rebuild {t : Devices} (h : Owned s ledger hands)
    (hfree : teardownPool s d = some t) (hsetup : setupPool cfg t d kmalloc = some s')
    (ha : (s.devOf a).isSome) (hpool : a ∉ ledger (.pool d)) :
    s'.heap.lookup a = s.heap.lookup a := by
  obtain ⟨heap, hfreed, rfl⟩ := Option.map_eq_some_iff.mp hfree
  obtain ⟨r, hr, rfl⟩ := Option.map_eq_some_iff.mp hsetup
  have hkept : heap.lookup a = s.heap.lookup a := by
    rw [lookup_teardownPoolFrom (h.chain (.pool d)) (h.nodup_list _) hfreed, if_neg hpool]
  refine (lookup_setupPoolFrom hr ?_).trans hkept
  rw [Devices.heap_withPool, hkept]
  simpa [Devices.devOf] using ha

end Hack.Dummeth
