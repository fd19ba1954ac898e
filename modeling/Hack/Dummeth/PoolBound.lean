import Hack.Dummeth.OwnershipSteps
import Mathlib.Data.Finset.Card

/-!
# The number of packets of a device

Packets are allocated in two places only: when the module is loaded, and when a
timeout rebuilds the pool of a device. A timeout frees the packets it finds in the
pool and allocates a whole pool again, while the packets that are on their way come
back later. So the number of packets stays within the size of a pool as long as a
pool is rebuilt only while all packets of the device are in it.
-/

namespace Hack.Dummeth

open LinkedList

/-- The allocated packets of a device. -/
def packetsOf (heap : Heap) (d : DevId) : Finset Addr :=
  (heap.keys.filter fun a => (heap.lookup a).map Packet.dev = some d).toFinset

/-- All packets of a device are in its pool. -/
def NoneInFlight (s : Devices) (d : DevId) : Prop :=
  ∃ l, Chain Packet.next (fun a => s.heap.lookup a) (s.priv d).ppool l ∧
    ∀ a ∈ packetsOf s.heap d, a ∈ l

/-- The condition on an event: a timeout rebuilds a pool only while all packets of its
device are in it. -/
def RebuildsFullPool (t : System) : Event → Prop
  | .call _ => True
  | .run i _ => ∀ d stack, t.threads[i]? = some (.timeoutRebuild d :: stack) →
      NoneInFlight t.devices d

variable {cfg : Config} {s s' : Devices} {heap : Heap} {d e : DevId} {a : Addr}
  {kmalloc : ℕ → Option Addr} {pcs : List Pc}

/-- The packets of a device are those that point to it. -/
@[simp]
theorem mem_packetsOf : a ∈ packetsOf heap d ↔ (heap.lookup a).map Packet.dev = some d := by
  simp only [packetsOf, List.mem_toFinset, List.mem_filter, decide_eq_true_eq,
    and_iff_right_iff_imp]
  intro ha
  obtain ⟨pkt, hpkt, -⟩ := Option.map_eq_some_iff.mp ha
  exact AList.mem_keys.mp (AList.lookup_isSome.mp (by simp [hpkt]))

/-- Setting up a pool allocates at most as many packets as it has rounds, all of them
for its device. -/
theorem card_packetsOf_setupPoolFrom {n i : ℕ} {ppool : Option Addr} {r : Heap × Option Addr}
    (hr : setupPoolFrom d kmalloc n i heap ppool = some r) :
    (packetsOf r.1 d).card ≤ (packetsOf heap d).card + n ∧
      ∀ e, e ≠ d → packetsOf r.1 e = packetsOf heap e := by
  fun_induction setupPoolFrom d kmalloc n i heap ppool with
  | case1 | case2 =>
    cases hr
    exact ⟨Nat.le_add_right _ _, fun _ _ => rfl⟩
  | case3 => cases hr
  | case4 n i heap ppool a ha hfresh ih =>
    obtain ⟨hcard, hother⟩ := ih hr
    have hsub : packetsOf (heap.insert a ⟨ppool, d, 0, []⟩) d ⊆ insert a (packetsOf heap d) := by
      intro b hb
      rcases eq_or_ne b a with rfl | hne
      · exact Finset.mem_insert_self _ _
      · refine Finset.mem_insert_of_mem ?_
        simpa [AList.lookup_insert_ne hne] using hb
    refine ⟨?_, fun e he => (hother e he).trans ?_⟩
    · have hle := (Finset.card_le_card hsub).trans (Finset.card_insert_le _ _)
      omega
    · ext b
      rcases eq_or_ne b a with rfl | hne
      · simp [AList.lookup_eq_none.mpr hfresh, he.symm]
      · simp [AList.lookup_insert_ne hne]

/-- After a pool that holds all packets of its device was freed, none are left. -/
theorem packetsOf_teardownPool (howned : OwnedBy s pcs) (hidle : NoneInFlight s d)
    (hs : teardownPool s d = some s') :
    packetsOf s'.heap d = ∅ ∧ ∀ e, e ≠ d → packetsOf s'.heap e = packetsOf s.heap e := by
  obtain ⟨⟨ledger, howned⟩, -⟩ := howned
  obtain ⟨l, hchain, hall⟩ := hidle
  obtain ⟨heap, hfreed, rfl⟩ := Option.map_eq_some_iff.mp hs
  have hpool : l = ledger (.pool d) := hchain.unique (howned.chain (.pool d))
  have hlookup := lookup_teardownPoolFrom hchain (hpool ▸ howned.nodup_list _) hfreed
  refine ⟨Finset.eq_empty_of_forall_notMem fun a ha => ?_, fun e he => ?_⟩
  · rw [mem_packetsOf, Devices.heap_withPool, hlookup] at ha
    split_ifs at ha with hmem
    · cases ha
    · exact hmem (hall a (mem_packetsOf.mpr ha))
  · ext a
    rw [mem_packetsOf, mem_packetsOf, Devices.heap_withPool, hlookup]
    split_ifs with hmem
    · have howner : (s.heap.lookup a).map Packet.dev = some d :=
        howned.owner (.pool d) a (hpool ▸ hmem)
      simp [howner, he.symm]
    · rfl

/-- The packets of both devices stay within the size of a pool. -/
def Devices.Bounded (cfg : Config) (s : Devices) : Prop :=
  ∀ d, (packetsOf s.heap d).card ≤ cfg.poolSize.toNat

/-- Setting up the pool of a device that has no packets. -/
theorem Devices.Bounded.of_setupPool (hempty : packetsOf s.heap d = ∅)
    (hother : ∀ e, e ≠ d → (packetsOf s.heap e).card ≤ cfg.poolSize.toNat)
    (hs : setupPool cfg s d kmalloc = some s') : s'.Bounded cfg := by
  obtain ⟨r, hr, rfl⟩ := Option.map_eq_some_iff.mp hs
  obtain ⟨hcard, hsame⟩ := card_packetsOf_setupPoolFrom hr
  intro e
  rcases eq_or_ne e d with rfl | he
  · simpa [hempty] using hcard
  · rw [Devices.heap_withPool, hsame e he]
    exact hother e he

/-- A loaded module has at most a pool of packets for each device. -/
theorem Devices.Initialised.bounded (h : s.Initialised cfg) : s.Bounded cfg := by
  obtain ⟨kmalloc, hinit⟩ := h
  obtain ⟨t, hfirst, hsecond⟩ := Option.bind_eq_some_iff.mp hinit
  have hempty : ∀ d, packetsOf (∅ : Heap) d = ∅ := fun d => rfl
  have ht : t.Bounded cfg := .of_setupPool (hempty .dev0) (by simp [hempty]) hfirst
  refine .of_setupPool ?_ (fun e _ => ht e) hsecond
  obtain ⟨r, hr, rfl⟩ := Option.map_eq_some_iff.mp hfirst
  exact ((card_packetsOf_setupPoolFrom hr).2 .dev1 (by simp)).trans (hempty .dev1)

/-- Every transition that meets the condition keeps the bound. -/
theorem Devices.Bounded.transition {choice : Choice} {pc : Pc} {rest : List Pc} (h : s.Bounded cfg)
    (howned : OwnedBy s (pc :: rest)) (htrans : Transition cfg s choice pc s' pcs)
    (hfull : ∀ d, pc = .timeoutRebuild d → NoneInFlight s d) : s'.Bounded cfg := by
  by_cases hpc : ∀ d, pc ≠ .timeoutRebuild d
  · -- Packets keep their device, so the packets of each device are the same.
    intro d
    have hsame : packetsOf s'.heap d = packetsOf s.heap d := by
      ext a
      rw [mem_packetsOf, mem_packetsOf]
      exact iff_of_eq (congrArg (· = some d) (htrans.devOf_eq hpc a))
    rw [hsame]
    exact h d
  · obtain ⟨d, rfl⟩ := not_forall_not.mp hpc
    cases htrans with
    | timeoutRebuild _ hfree hsetup =>
      obtain ⟨hempty, hother⟩ := packetsOf_teardownPool howned (hfull d rfl) hfree
      refine .of_setupPool hempty (fun e he => ?_) hsetup
      rw [hother e he]
      exact h e

/-- **The packets of a device stay within the size of a pool.** In every run in which a
timeout rebuilds a pool only while all packets of its device are in it, at most
`pool_size` packets of a device are allocated. -/
theorem card_packetsOf_le_poolSize (hsize : 0 ≤ cfg.poolSize) {t : System}
    (hreach : (driverMachine cfg (Devices.Initialised cfg)).ReachableUnder RebuildsFullPool t)
    (d : DevId) : ((packetsOf t.devices.heap d).card : ℤ) ≤ cfg.poolSize := by
  have hinv : t.OwnedOnce ∧ t.devices.Bounded cfg := by
    refine hreach.invariant (fun t => t.OwnedOnce ∧ t.devices.Bounded cfg) ?_ ?_
    · rintro ⟨s, threads⟩ ⟨hstart, hthreads⟩
      cases hthreads
      exact ⟨⟨hstart.owned, by simp⟩, hstart.bounded⟩
    · rintro t event t' ⟨howned, h⟩ hcond hnext
      refine ⟨howned.next hnext, ?_⟩
      cases System.move_of_next hnext with
      | call hdevices _ => rwa [hdevices]
      | run hget hbefore htrans _ =>
        refine h.transition ((System.ownedOnce_iff.mp howned).perm hbefore) htrans ?_
        rintro d rfl
        exact hcond d _ hget
  have hle := hinv.2 d
  omega

/-- A timeout of device 0 up to the point where it rebuilds the pool. -/
def Event.timeoutBegun : List Event := .call (.txTimeout .dev0) :: List.replicate 4 (.run 0 {})

/-- A check for events that rebuild no pool. -/
def rebuildsNothing (t : System) : Event → Bool
  | .call _ => true
  | .run i _ => match t.threads[i]? with
    | some (.timeoutRebuild _ :: _) => false
    | _ => true

/-- Such events meet the condition. -/
theorem rebuildsFullPool_of_rebuildsNothing {t : System} {event : Event}
    (h : rebuildsNothing t event = true) : RebuildsFullPool t event := by
  cases event with
  | call op => trivial
  | run i choice =>
    intro d stack hget
    simp [rebuildsNothing, hget] at h

/-- A timeout of the idle sample replaces the two packets of device 0. -/
theorem card_packetsOf_after_timeout :
    ∃ t, (driverMachine .sample (Devices.Initialised .sample)).ReachableUnder RebuildsFullPool t ∧
      packetsOf t.devices.heap .dev0 = {5, 6} ∧
      ((packetsOf t.devices.heap .dev0).card : ℤ) ≤ Config.sample.poolSize := by
  have hrun : ∃ t t', ((driverMachine .sample (Devices.Initialised .sample)).guarded
      rebuildsNothing).run ⟨.sample, []⟩ Event.timeoutBegun = some t ∧
      t.threads[0]? = some [.timeoutRebuild .dev0] ∧ NoneInFlight t.devices .dev0 ∧
      t.next .sample (.run 0 { kmalloc := fun i => some (i + 5) }) = some t' ∧
      packetsOf t'.devices.heap .dev0 = {5, 6} :=
    ⟨_, _, rfl, rfl, ⟨[2, 1], .cons rfl (.cons rfl .nil), by decide⟩, rfl, by decide⟩
  obtain ⟨t, t', hrun, hget, hidle, hnext, hpackets⟩ := hrun
  have hreach : (driverMachine .sample (Devices.Initialised .sample)).ReachableUnder
      RebuildsFullPool t := .of_guarded_run (.start ⟨Devices.sample_initialised, rfl⟩)
    (fun _ _ => rebuildsFullPool_of_rebuildsNothing) hrun
  have hcond : RebuildsFullPool t (.run 0 { kmalloc := fun i => some (i + 5) }) := by
    intro d stack hget'
    cases hget.symm.trans hget'
    exact hidle
  have hreach' := hreach.next hcond hnext
  exact ⟨t', hreach', hpackets, card_packetsOf_le_poolSize (by decide) hreach' .dev0⟩

/-- Device 0 sends a packet, and a timeout rebuilds its pool before the packet was
polled. -/
def Event.timeoutWhileQueued : List Event :=
  Event.call (.xmit .dev0 7 []) :: List.replicate 13 (Event.run 0 {}) ++
  Event.call (.txTimeout .dev0) :: List.replicate 4 (Event.run 1 {}) ++
  [Event.run 1 { kmalloc := fun i => some (i + 5) }, Event.run 1 {}]

/-- The queued packet and the two packets of the new pool are more than a pool. -/
theorem packetsOf_exceeds_poolSize :
    ∃ t, (driverMachine .sample (Devices.Initialised .sample)).Reachable t ∧ t.Idle ∧
      Config.sample.poolSize < ((packetsOf t.devices.heap .dev0).card : ℤ) := by
  refine Machine.exists_reachable (s := ⟨.sample, []⟩) ⟨Devices.sample_initialised, rfl⟩
    Event.timeoutWhileQueued
    (fun t => t.threads = [[], []] ∧ (packetsOf t.devices.heap .dev0).card = 3)
    ⟨_, rfl, rfl, rfl⟩ fun t _ ⟨hthreads, hcard⟩ => ⟨?_, ?_⟩
  · simp [System.Idle, hthreads]
  · simp [hcard, Config.sample]

end Hack.Dummeth
