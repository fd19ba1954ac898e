import Hack.Custody
import Hack.Machine
import Hack.StatusRing

/-!
# The transmit ring of the raw socket client

This file embeds the ring of `process_tx` in `sock-raw-mmap-packet-ip/client/client.c`. The client
waits until the frame at its offset is available, copies a packet into it, and asks for the frame to
be sent. The kernel takes the requested frames one after the other, refers to their bytes until it
has sent them, and makes them available again in any order. The steps of the two are interleaved
in every way.
-/

namespace Hack.MmapRing

open Function

/-- `FRAME_SIZE`. -/
def frameSize : ℕ := 2048

/-- `TX_DATA_OFFSET`: the size of `struct tpacket2_hdr`, which is aligned. -/
def txDataOffset : ℕ := 32

/-- `TP_STATUS_AVAILABLE`, `TP_STATUS_SEND_REQUEST`, `TP_STATUS_SENDING` and
`TP_STATUS_WRONG_FORMAT`. -/
inductive TxStatus
  | available
  | sendRequest
  | sending
  | wrongFormat
deriving DecidableEq

/-- A frame of the ring: the two fields of its header, and the bytes behind it. -/
structure TxFrame where
  status : TxStatus
  tpLen : ℕ
  data : List UInt8
deriving DecidableEq

/-- The packet in a frame. -/
def TxFrame.packet (f : TxFrame) : List UInt8 := f.data.take f.tpLen

/-- The frames that the kernel has been asked to send and has not taken. -/
def TxFrame.waits (f : TxFrame) : Bool := f.status = .sendRequest ∨ f.status = .wrongFormat

/-- The packet of a frame that the kernel has taken. -/
def TxFrame.inFlight (f : TxFrame) : List (List UInt8) :=
  if f.status = .sending then [f.packet] else []

/-- Where the client is in `process_tx`. -/
inductive TxPc
  /-- Outside of it. -/
  | idle
  /-- At the head of the loop around `poll`. -/
  | wait (pkt : List UInt8)
  /-- Before the packet is copied. -/
  | fill (pkt : List UInt8)
  /-- Before `tp_len` is stored. -/
  | setLen (pkt : List UInt8)
  /-- Before `tp_status` is stored. -/
  | setStatus (pkt : List UInt8)
  /-- Before `ring_offset` is increased. -/
  | advance
  /-- In `send`. -/
  | send
deriving DecidableEq

/-- The ring, `ring_offset`, the position of the client, and the frame that the kernel looks at
next; and, in order, the packets that the client has requested, that the kernel has taken, and that
it has sent. -/
structure TxRing where
  ring : ℕ → TxFrame
  ringOffset : ℕ
  pc : TxPc
  head : ℕ
  requested : List (List UInt8)
  taken : List (List UInt8)
  sent : List (List UInt8)

/-- What happens next. -/
inductive TxEvent
  /-- `process_tx` is called. -/
  | call (pkt : List UInt8)
  /-- The next statement of the client. -/
  | run
  /-- `poll` returns, with an error or without one. -/
  | poll (error : Bool)
  /-- The kernel takes the frame it looks at. -/
  | take
  /-- The kernel finds that frame in a wrong format. -/
  | reject
  /-- The kernel has sent a frame. -/
  | complete (slot : ℕ)

namespace TxRing

/-- The frame at the offset of the client after a change. -/
def write (s : TxRing) (f : TxFrame → TxFrame) (pc : TxPc) : TxRing :=
  { s with ring := update s.ring s.ringOffset (f (s.ring s.ringOffset)), pc := pc }

/-- The next statement of `process_tx` in a ring of `n` frames. -/
def step (n : ℕ) (s : TxRing) : Option TxRing :=
  match s.pc with
  | .idle => none
  | .wait pkt =>
    if (s.ring s.ringOffset).status = .available then some { s with pc := .fill pkt } else none
  | .fill pkt =>
    -- A longer packet would be copied over the next frame.
    if txDataOffset + pkt.length ≤ frameSize then
      some (s.write (fun f => { f with data := pkt ++ f.data.drop pkt.length }) (.setLen pkt))
    else none
  | .setLen pkt => some (s.write (fun f => { f with tpLen := pkt.length }) (.setStatus pkt))
  | .setStatus pkt =>
    some { s.write (fun f => { f with status := .sendRequest }) .advance with
      requested := s.requested ++ [pkt] }
  | .advance => some { s with ringOffset := (s.ringOffset + 1) &&& (n - 1), pc := .send }
  | .send => some { s with pc := .idle }

/-- The ring after an event. -/
def next (n : ℕ) (s : TxRing) : TxEvent → Option TxRing
  | .call pkt => if s.pc = .idle then some { s with pc := .wait pkt } else none
  | .run => s.step n
  | .poll error =>
    match s.pc with
    | .wait pkt =>
      if (s.ring s.ringOffset).status = .available then none
      else some { s with pc := if error then .idle else .wait pkt }
    | _ => none
  | .take =>
    if (s.ring s.head).status = .sendRequest then
      some { s with
        ring := update s.ring s.head { s.ring s.head with status := .sending }
        head := (s.head + 1) % n
        taken := s.taken ++ [(s.ring s.head).packet] }
    else none
  | .reject =>
    if (s.ring s.head).status = .sendRequest then
      some { s with
        ring := update s.ring s.head { s.ring s.head with status := .wrongFormat } }
    else none
  | .complete slot =>
    if slot < n ∧ (s.ring slot).status = .sending then
      some { s with
        ring := update s.ring slot { s.ring slot with status := .available }
        sent := s.sent ++ [(s.ring slot).packet] }
    else none

/-- The ring as the kernel sets it up: every frame is available. -/
def Fresh (s : TxRing) : Prop :=
  (∀ slot, (s.ring slot).status = .available) ∧ s.ringOffset = 0 ∧ s.pc = .idle ∧ s.head = 0 ∧
    s.requested = [] ∧ s.taken = [] ∧ s.sent = []

/-- The packets that wait for the kernel, from the frame it looks at on. -/
def pending (n : ℕ) (s : TxRing) : List (List UInt8) :=
  (((List.range n).map fun i => s.ring ((s.head + i) % n)).takeWhile TxFrame.waits).map
    TxFrame.packet

/-- The packets that the kernel has taken and not sent yet. -/
def inFlight (n : ℕ) (s : TxRing) : List (List UInt8) :=
  (List.range n).flatMap fun slot => (s.ring slot).inFlight

/-- The client is about to write to its frame. -/
def Writes : TxPc → Prop
  | .fill _ => True
  | .setLen _ => True
  | .setStatus _ => True
  | _ => False

end TxRing

/-- The client and the kernel on a ring of `n` frames. -/
def txMachine (n : ℕ) : Machine TxRing TxEvent where
  start := TxRing.Fresh
  next := TxRing.next n

/-! ### The invariant -/

namespace TxRing

/-- The number of the frame at the offset of the client. -/
def cursor (pc : TxPc) (requested : ℕ) : ℕ := if pc = .advance then requested - 1 else requested

/-- What the frame at the offset holds already. -/
def Prepared (f : TxFrame) : TxPc → Prop
  | .fill _ => f.status = .available
  | .setLen pkt => f.status = .available ∧ f.data.take pkt.length = pkt
  | .setStatus pkt =>
    f.status = .available ∧ f.data.take pkt.length = pkt ∧ f.tpLen = pkt.length
  | _ => True

/-- The packets that have been requested wait in the ring until they are taken, and are in flight
until they are sent. -/
structure Inv (n : ℕ) (s : TxRing) : Prop where
  window : StatusRing.Window TxFrame.waits TxFrame.packet n s.ring s.requested s.taken.length
  taken : s.taken = s.requested.take s.taken.length
  head : s.head = s.taken.length % n
  offset : s.ringOffset = cursor s.pc s.requested.length % n
  advanced : s.pc = .advance → 0 < s.requested.length
  prepared : Prepared (s.ring s.ringOffset) s.pc
  flight : (s.sent ++ s.inFlight n).Perm s.taken

variable {n : ℕ} {s s' : TxRing} {f : TxFrame} {pc : TxPc} {i k : ℕ}

/-- The client prepares an available frame. -/
theorem available_of_writes (h : Prepared f pc) (hwrites : Writes pc) : f.status = .available := by
  cases pc with
  | fill pkt => exact h
  | setLen pkt => exact h.1
  | setStatus pkt => exact h.1
  | idle | wait pkt | advance | send => cases hwrites

/-- A frame that the client writes to does not wait. -/
theorem waits_eq_false (h : f.status = .available) : f.waits = false := by
  rw [TxFrame.waits, h]
  rfl

/-- A frame that the client writes to is not in flight. -/
theorem inFlight_eq_nil (h : f.status ≠ .sending) : f.inFlight = [] := if_neg h

/-- A frame that is changed and is not in flight, before and after. -/
theorem inFlight_update (hold : (s.ring i).status ≠ .sending) (hnew : f.status ≠ .sending)
    (hring : s'.ring = update s.ring i f) : s'.inFlight n = s.inFlight n := by
  refine List.flatMap_congr fun slot _ => ?_
  rw [hring]
  by_cases hslot : slot = i
  · subst hslot
    rw [update_self, inFlight_eq_nil hold, inFlight_eq_nil hnew]
  · rw [update_of_ne hslot]

/-- Outside of one position the client is at the next frame to request. -/
theorem cursor_mod (hpc : pc ≠ .advance) (requested : ℕ) :
    cursor pc requested % n = requested % n := by
  rw [cursor, if_neg hpc]

/-- The position of the client changes, and nothing else. -/
theorem Inv.goto (h : s.Inv n) (hpc : s.pc ≠ .advance) (hpc' : pc ≠ .advance)
    (hprepared : Prepared (s.ring s.ringOffset) pc) : Inv n { s with pc := pc } :=
  ⟨h.window, h.taken, h.head, (h.offset.trans (cursor_mod hpc _)).trans (cursor_mod hpc' _).symm,
    fun hadv => absurd hadv hpc', hprepared, h.flight⟩

/-- The client writes to the frame at its offset, which stays available. -/
theorem Inv.write (h : s.Inv n) (hpc : s.pc ≠ .advance)
    (havailable : (s.ring s.ringOffset).status = .available) {f : TxFrame → TxFrame}
    (hstays : (f (s.ring s.ringOffset)).status = .available) (hpc' : pc ≠ .advance)
    (hprepared : Prepared (f (s.ring s.ringOffset)) pc) : (s.write f pc).Inv n := by
  have hflight : (s.write f pc).inFlight n = s.inFlight n :=
    inFlight_update (by simp [havailable]) (by simp [hstays]) rfl
  refine ⟨h.window.update_free (waits_eq_false havailable) (waits_eq_false hstays), h.taken, h.head,
    (h.offset.trans (cursor_mod hpc _)).trans (cursor_mod hpc' _).symm,
    fun hadv => absurd hadv hpc', ?_, ?_⟩
  · change Prepared (update s.ring s.ringOffset _ s.ringOffset) pc
    rw [update_self]
    exact hprepared
  · rw [hflight]
    exact h.flight

/-- The client requests the frame at its offset. -/
theorem Inv.request (h : s.Inv n) (hn : 0 < n) {pkt : List UInt8} (hpc : s.pc = .setStatus pkt) :
    Inv n { s.write (fun f => { f with status := .sendRequest }) .advance with
      requested := s.requested ++ [pkt] } := by
  have hprepared := h.prepared
  rw [hpc] at hprepared
  obtain ⟨havailable, hdata, hlen⟩ := hprepared
  have hoffset : s.ringOffset = s.requested.length % n := by
    rw [h.offset, hpc]
    rfl
  have hpacket : TxFrame.packet { s.ring s.ringOffset with status := .sendRequest } = pkt := by
    rw [TxFrame.packet, hlen, hdata]
  have hfree : (s.ring (s.requested.length % n)).waits = false := by
    rw [← hoffset]
    exact waits_eq_false havailable
  have hwindow := @StatusRing.Window.push _ _ _ _ _ _ _ _ h.window hn hfree
    { s.ring s.ringOffset with status := .sendRequest } rfl
  rw [hpacket, ← hoffset] at hwindow
  have hlength : (s.requested ++ [pkt]).length = s.requested.length + 1 := by simp
  have hle := h.window.le_length
  refine ⟨hwindow, ?_, h.head, ?_, fun _ => ?_, trivial, ?_⟩
  · exact h.taken.trans (List.take_append_of_le_length hle).symm
  · change s.ringOffset = ((s.requested ++ [pkt]).length - 1) % n
    rw [hlength, Nat.add_sub_cancel, hoffset]
  · change 0 < (s.requested ++ [pkt]).length
    omega
  · have hflight : TxRing.inFlight n { s.write (fun f => { f with status := .sendRequest })
        .advance with requested := s.requested ++ [pkt] } = s.inFlight n :=
      inFlight_update (by simp [havailable]) (by simp) rfl
    rw [hflight]
    exact h.flight

/-- The client goes on to the next frame. -/
theorem Inv.advance (hn : n = 2 ^ k) (h : s.Inv n) (hpc : s.pc = .advance) :
    Inv n { s with ringOffset := (s.ringOffset + 1) &&& (n - 1), pc := .send } := by
  refine ⟨h.window, h.taken, h.head, ?_, (fun hadv => by cases hadv), trivial, h.flight⟩
  have hpos := h.advanced hpc
  have hoffset : s.ringOffset = (s.requested.length - 1) % n := by
    rw [h.offset, cursor, if_pos hpc]
  have hmask : (s.ringOffset + 1) &&& (n - 1) = (s.ringOffset + 1) % n := by
    rw [hn, Nat.and_two_pow_sub_one_eq_mod]
  change (s.ringOffset + 1) &&& (n - 1) = s.requested.length % n
  rw [hmask, hoffset, Nat.mod_add_mod, Nat.sub_add_cancel hpos]

/-- One statement of the client. -/
theorem Inv.step (hn : n = 2 ^ k) (h : s.Inv n) (hstep : s.step n = some s') : s'.Inv n := by
  have hpos : 0 < n := by
    rw [hn]
    exact Nat.two_pow_pos k
  have hprepared := h.prepared
  rw [TxRing.step] at hstep
  cases hpc : s.pc with
  | idle =>
    rw [hpc] at hstep
    cases hstep
  | wait pkt =>
    rw [hpc] at hstep
    dsimp only at hstep
    split_ifs at hstep with havailable
    cases hstep
    exact h.goto (by simp [hpc]) (by simp) havailable
  | fill pkt =>
    rw [hpc] at hstep hprepared
    dsimp only at hstep
    split_ifs at hstep
    cases hstep
    exact h.write (by simp [hpc]) hprepared hprepared (by simp) ⟨hprepared, List.take_left⟩
  | setLen pkt =>
    rw [hpc] at hstep hprepared
    cases hstep
    exact h.write (by simp [hpc]) hprepared.1 hprepared.1 (by simp)
      ⟨hprepared.1, hprepared.2, rfl⟩
  | setStatus pkt =>
    rw [hpc] at hstep
    cases hstep
    exact h.request hpos hpc
  | advance =>
    rw [hpc] at hstep
    cases hstep
    exact h.advance hn hpc
  | send =>
    rw [hpc] at hstep
    cases hstep
    exact h.goto (by simp [hpc]) (by simp) trivial

/-- The kernel changes a frame that is not available, which the client does not prepare. -/
theorem prepared_update {ring : ℕ → TxFrame} {j : ℕ} (h : Prepared (ring i) pc)
    (hj : (ring j).status ≠ .available) (f : TxFrame) :
    Prepared (update ring j f i) pc := by
  by_cases hij : i = j
  · subst hij
    have hwrites : ¬Writes pc := fun hwrites => hj (available_of_writes h hwrites)
    cases pc with
    | fill pkt | setLen pkt | setStatus pkt => exact absurd trivial hwrites
    | idle | wait pkt | advance | send => trivial
  · rw [update_of_ne hij]
    exact h

/-- A frame is taken into flight or out of it. -/
theorem inFlight_perm (hi : i < n) (hring : s'.ring = update s.ring i f)
    {l l' : List (List UInt8)} (hone : (l ++ (s.ring i).inFlight).Perm (l' ++ f.inFlight)) :
    (l ++ s.inFlight n).Perm (l' ++ s'.inFlight n) := by
  refine Custody.flatMap_congr_perm (List.mem_range.mpr hi) List.nodup_range (fun j hj => ?_) ?_
  · rw [hring, update_of_ne hj]
  · rw [hring, update_self]
    exact hone

/-- The kernel takes a frame. -/
theorem Inv.take (h : s.Inv n) (hpos : 0 < n) (hstatus : (s.ring s.head).status = .sendRequest) :
    Inv n { s with
      ring := update s.ring s.head { s.ring s.head with status := .sending }
      head := (s.head + 1) % n
      taken := s.taken ++ [(s.ring s.head).packet] } := by
  have hwaits : (s.ring s.head).waits = true := by
    rw [TxFrame.waits, hstatus]
    rfl
  have hwindow := @StatusRing.Window.pop _ _ _ _ _ _ _ _ h.window hpos (h.head ▸ hwaits)
    { s.ring s.head with status := .sending } rfl
  rw [← h.head] at hwindow
  have hlength : (s.taken ++ [(s.ring s.head).packet]).length = s.taken.length + 1 := by simp
  have hnext := (h.window.waiting s.taken.length (Nat.le_refl _)
    (h.window.lt_length hpos (h.head ▸ hwaits))).2
  rw [← h.head] at hnext
  refine ⟨hlength.symm ▸ hwindow, ?_, ?_, h.offset, h.advanced,
    prepared_update h.prepared (by simp [hstatus]) _, ?_⟩
  · change s.taken ++ [(s.ring s.head).packet] =
      s.requested.take (s.taken ++ [(s.ring s.head).packet]).length
    rw [hlength, List.take_add_one, ← h.taken, hnext]
    rfl
  · change (s.head + 1) % n = (s.taken ++ [(s.ring s.head).packet]).length % n
    rw [hlength, h.head, Nat.mod_add_mod]
  · have hslot : s.head < n := by
      rw [h.head]
      exact Nat.mod_lt _ hpos
    have hmoved : (s.sent ++ [(s.ring s.head).packet] ++ s.inFlight n).Perm (s.sent ++
        TxRing.inFlight n { s with
          ring := update s.ring s.head { s.ring s.head with status := .sending } }) := by
      refine inFlight_perm hslot rfl ?_
      rw [inFlight_eq_nil (by simp [hstatus]), List.append_nil]
      exact List.Perm.refl _
    refine hmoved.symm.trans ?_
    have hflight := h.flight.append_right [(s.ring s.head).packet]
    refine List.Perm.trans ?_ hflight
    rw [List.append_assoc, List.append_assoc]
    exact List.perm_append_comm.append_left s.sent

/-- The kernel finds a frame in a wrong format. -/
theorem Inv.reject (h : s.Inv n) (hstatus : (s.ring s.head).status = .sendRequest) : Inv n { s with
      ring := update s.ring s.head { s.ring s.head with status := .wrongFormat } } := by
  have hwaits : (s.ring s.head).waits = true := by
    rw [TxFrame.waits, hstatus]
    rfl
  have hflight : TxRing.inFlight n { s with
      ring := update s.ring s.head { s.ring s.head with status := .wrongFormat } } =
        s.inFlight n :=
    inFlight_update (by simp [hstatus]) (by simp) rfl
  refine ⟨h.window.update_waiting hwaits rfl rfl, h.taken, h.head, h.offset, h.advanced,
    prepared_update h.prepared (by simp [hstatus]) _, ?_⟩
  rw [hflight]
  exact h.flight

/-- The kernel has sent a frame. -/
theorem Inv.complete (h : s.Inv n) {slot : ℕ} (hslot : slot < n)
    (hstatus : (s.ring slot).status = .sending) :
    Inv n { s with
      ring := update s.ring slot { s.ring slot with status := .available }
      sent := s.sent ++ [(s.ring slot).packet] } := by
  have hfree : (s.ring slot).waits = false := by
    rw [TxFrame.waits, hstatus]
    rfl
  refine ⟨h.window.update_free hfree rfl, h.taken, h.head, h.offset, h.advanced,
    prepared_update h.prepared (by simp [hstatus]) _, ?_⟩
  have hmoved : (s.sent ++ s.inFlight n).Perm (s.sent ++ [(s.ring slot).packet] ++
      TxRing.inFlight n { s with
        ring := update s.ring slot { s.ring slot with status := .available } }) := by
    refine inFlight_perm hslot rfl ?_
    rw [TxFrame.inFlight, if_pos hstatus]
    exact (List.append_nil _).symm ▸ List.Perm.refl _
  exact hmoved.symm.trans h.flight

/-- Every event keeps the invariant. -/
theorem Inv.next (hn : n = 2 ^ k) (h : s.Inv n) {event : TxEvent}
    (hnext : s.next n event = some s') :
    s'.Inv n := by
  have hpos : 0 < n := by
    rw [hn]
    exact Nat.two_pow_pos k
  cases event with
  | call pkt =>
    rw [TxRing.next] at hnext
    split_ifs at hnext with hpc
    cases hnext
    exact h.goto (by simp [hpc]) (by simp) trivial
  | run => exact h.step hn hnext
  | poll error =>
    rw [TxRing.next] at hnext
    split at hnext
    next pkt hpc =>
      split_ifs at hnext
      · cases hnext
        exact h.goto (by simp [hpc]) (by simp) trivial
      · cases hnext
        exact h.goto (by simp [hpc]) (by simp) trivial
    next => cases hnext
  | take =>
    rw [TxRing.next] at hnext
    split_ifs at hnext with hstatus
    cases hnext
    exact h.take hpos hstatus
  | reject =>
    rw [TxRing.next] at hnext
    split_ifs at hnext with hstatus
    cases hnext
    exact h.reject hstatus
  | complete slot =>
    rw [TxRing.next] at hnext
    split_ifs at hnext with hslot
    cases hnext
    exact h.complete hslot.1 hslot.2

/-- The invariant holds in the beginning. -/
theorem Inv.fresh (h : s.Fresh) : s.Inv n := by
  obtain ⟨havailable, hoffset, hpc, hhead, hrequested, htaken, hsent⟩ := h
  have hflight : s.inFlight n = [] :=
    List.flatMap_eq_nil_iff.mpr fun slot _ => inFlight_eq_nil (by simp [havailable])
  refine ⟨?_, ?_, ?_, ?_, ?_, ?_, ?_⟩
  · rw [hrequested, htaken]
    exact .empty fun slot => waits_eq_false (havailable slot)
  · simp [htaken]
  · simp [hhead, htaken]
  · simp [hoffset, hpc, cursor, hrequested]
  · simp [hpc]
  · rw [hpc]
    trivial
  · rw [hflight, hsent, htaken]
    exact List.Perm.refl _

end TxRing

/-- **The transmit ring.** In every interleaving of the client with the kernel, on a ring of any
power of two frames, the packets that were requested are those that the kernel has taken, in order,
followed by those that wait in the ring. What was taken has been sent or is in flight, each packet
once and with the bytes that were requested. The client only writes to frames that are available. -/
theorem txRing_sends_in_order {n k : ℕ} (hn : n = 2 ^ k) {s : TxRing}
    (hreach : (txMachine n).Reachable s) :
    s.requested = s.taken ++ s.pending n ∧ (s.sent ++ s.inFlight n).Perm s.taken ∧
      (TxRing.Writes s.pc → (s.ring s.ringOffset).status = .available) := by
  have hinv : s.Inv n := Machine.ReachableUnder.invariant (TxRing.Inv n)
    (fun _ hstart => .fresh hstart) (fun _ _ _ h _ hnext => h.next hn hnext) hreach
  refine ⟨?_, hinv.flight, ?_⟩
  · have hpending : s.pending n = s.requested.drop s.taken.length := by
      rw [TxRing.pending, ← hinv.window.takeWhile_eq, hinv.head]
      simp only [Nat.mod_add_mod]
    have htake := List.take_append_drop s.taken.length s.requested
    rw [← hinv.taken, ← hpending] at htake
    exact htake.symm
  · exact TxRing.available_of_writes hinv.prepared

/-- A ring of two frames before anything is sent. -/
def TxRing.initial : TxRing :=
  ⟨fun _ => ⟨.available, 0, List.replicate 4 0⟩, 0, .idle, 0, [], [], []⟩

/-- Three packets go into two frames. The kernel has sent the second one and still refers to the
first one, so that the client waits with the third one. -/
def TxEvent.waitingRun : List TxEvent :=
  [.call [1, 1], .run, .run, .run, .run, .run, .run, .call [2], .run, .run, .run, .run, .take,
    .run, .run, .take, .complete 1, .call [3, 3], .poll false]

/-- The client waits for the frame that is in flight. -/
theorem txRing_sends_in_order_waitingRun :
    ∃ s, 2 = 2 ^ 1 ∧ (txMachine 2).Reachable s ∧ s.requested = [[1, 1], [2]] ∧ s.sent = [[2]] ∧
      s.inFlight 2 = [[1, 1]] ∧ s.pc = .wait [3, 3] ∧ s.requested = s.taken ++ s.pending 2 := by
  have heval : ((txMachine 2).run .initial TxEvent.waitingRun).any (fun s =>
      s.requested = [[1, 1], [2]] ∧ s.sent = [[2]] ∧ s.inFlight 2 = [[1, 1]] ∧
        s.pc = .wait [3, 3]) = true := by decide +kernel
  obtain ⟨s, hrun, heval⟩ := (Option.any_eq_true _ _).mp heval
  obtain ⟨hrequested, hsent, hflight, hpc⟩ := of_decide_eq_true heval
  have hreach : (txMachine 2).Reachable s :=
    .of_run (.start ⟨fun _ => rfl, rfl, rfl, rfl, rfl, rfl, rfl⟩) hrun
  exact ⟨s, rfl, hreach, hrequested, hsent, hflight, hpc,
    (txRing_sends_in_order (k := 1) rfl hreach).1⟩

end Hack.MmapRing
