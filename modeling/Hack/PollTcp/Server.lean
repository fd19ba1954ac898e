import Hack.Custody
import Hack.EchoReply
import Hack.Machine

/-!
# The slots of the poll server

This file embeds `wait_client` of `sock-poll-tcp/server_p.c`. The loop polls the listening
socket and a fixed number of slots, puts an accepted client into the first slot whose
descriptor is zero, and reads from every slot that has input. A slot is initialised with an
event mask once. A client that disconnects leaves its slot with an empty mask, and a client
that is accepted into the slot is never polled for input. What a client sends is answered
with a greeting in front of it, in a buffer that may be too small for both. A step of the
machine is a call of `poll` with the accept after it, or the handling of one slot.
-/

namespace Hack.PollTcp

/-- `MAX_CLIENTS`. -/
def maxClients : ℕ := 10

/-- `POLLIN`. -/
def pollIn : BitVec 16 := 1

/-- `POLLPRI`. -/
def pollPri : BitVec 16 := 2

/-- `struct pollfd`. -/
structure PollFd where
  fd : ℤ
  events : BitVec 16
  revents : BitVec 16
deriving DecidableEq

/-- The local variables of `wait_client`, and where it is. -/
structure WaitClient where
  /-- `pollfds[0]`, the listening socket. -/
  listener : PollFd
  /-- The slots for clients, which follow it. -/
  slots : List PollFd
  useClient : ℤ
  /-- The slot that is handled next, `none` before a call of `poll`. -/
  handling : Option ℕ
  /-- A reply was written behind the end of `wbuf`. Nothing is known of the variables then, and
  the loop takes no further step. -/
  overrun : Bool

/-- What the kernel answers. -/
inductive Answer
  /-- `poll` returned without events, or failed. -/
  | pollFailed
  /-- `poll` returned events for each entry. If there is a client to accept, the answers of
  `accept` and of `make_socket_non_blocking` follow. -/
  | poll (revents : ℕ → BitVec 16) (clientSocket nonblockResult : ℤ)
  /-- What `read` stores in `rbuf` for the slot that is handled, if it is called: no bytes at
  the end of the input, and `none` if it fails. -/
  | slot (rbuf : Option (List UInt8))

/-- The state before the first call of `poll`. What `revents` holds is never read. -/
def WaitClient.initial (serverSocket : ℤ) : WaitClient where
  listener := ⟨serverSocket, pollIn ||| pollPri, 0⟩
  slots := List.replicate maxClients ⟨0, pollIn ||| pollPri, 0⟩
  useClient := 0
  handling := none
  overrun := false

/-- The state after `poll` stored the events. -/
def WaitClient.polled (s : WaitClient) (revents : ℕ → BitVec 16) : WaitClient :=
  { s with
    listener := { s.listener with revents := revents 0 }
    slots := s.slots.mapIdx fun i slot => { slot with revents := revents (i + 1) } }

/-- The loop that looks for a slot for a client. Without a free slot the client is not kept. -/
def WaitClient.placeClient (s : WaitClient) (clientSocket : ℤ) : WaitClient :=
  match s.slots.findIdx? fun slot => slot.fd = 0 with
  | none => s
  | some i =>
    { s with
      slots := s.slots.modify i fun slot => { slot with fd := clientSocket }
      useClient := s.useClient + 1 }

/-- The handling of one slot: after the end of its input and after an error it is cleared, and
other input is answered. -/
def WaitClient.handleSlot (s : WaitClient) (i : ℕ) (slot : PollFd)
    (rbuf : Option (List UInt8)) : WaitClient :=
  if 0 < slot.fd ∧ slot.revents &&& pollIn ≠ 0 then
    match rbuf with
    | none | some [] =>
      { s with slots := s.slots.set i ⟨0, 0, 0⟩, useClient := s.useClient - 1 }
    | some bytes =>
      -- The two calls of `strcat`.
      match EchoReply.Server.poll.reply bytes with
      | some _ => s
      | none => { s with overrun := true }
  else s

/-- One step of the loop. -/
def WaitClient.next (s : WaitClient) (answer : Answer) : Option WaitClient :=
  if s.overrun then none
  else match s.handling, answer with
    | none, .pollFailed => some s
    | none, .poll revents clientSocket nonblockResult =>
      if revents 0 &&& pollIn ≠ 0 then
        if nonblockResult < 0 then some (s.polled revents)
        else some { (s.polled revents).placeClient clientSocket with handling := some 0 }
      else some { s.polled revents with handling := some 0 }
    | some i, .slot rbuf =>
      (s.slots[i]?).map fun slot =>
        { s.handleSlot i slot rbuf with
          handling := if i + 1 < maxClients then some (i + 1) else none }
    | _, _ => none

/-- `wait_client` as a machine. -/
def waitClient : Machine WaitClient Answer where
  start s := ∃ serverSocket, s = .initial serverSocket
  next := WaitClient.next

/-- A client is accepted. -/
def Answer.Accepts : Answer → Prop
  | .poll revents _ nonblockResult => revents 0 &&& pollIn ≠ 0 ∧ 0 ≤ nonblockResult
  | _ => False

/-- What the kernel may answer: an accepted client has a positive descriptor, since zero is
in use, no descriptor that was not accepted can be made non-blocking, and `read` stores no
more bytes than `rbuf` holds. -/
def Answer.Allowed : Answer → Prop
  | .pollFailed => True
  | .poll revents clientSocket nonblockResult =>
      (Answer.poll revents clientSocket nonblockResult).Accepts → 0 < clientSocket
  | .slot rbuf => (rbuf.getD []).length ≤ EchoReply.Server.poll.size

/-- A slot that a client has left. -/
def PollFd.Cleared (slot : PollFd) : Prop := slot.fd = 0 ∧ slot.events = 0

/-- No client is accepted after a client has left its slot. -/
def Answer.KeepsSlots (s : WaitClient) (answer : Answer) : Prop :=
  answer.Accepts → ∀ slot ∈ s.slots, ¬slot.Cleared

/-- The reply to what was read fits in `wbuf`. -/
def Answer.ReplyFits : Answer → Prop
  | .slot rbuf => EchoReply.Server.poll.Fits (rbuf.getD [])
  | _ => True

/-- The condition on a step. -/
def Answer.Fair (s : WaitClient) (answer : Answer) : Prop :=
  answer.Allowed ∧ answer.KeepsSlots s ∧ answer.ReplyFits

instance (answer : Answer) : Decidable answer.Accepts :=
  match answer with
  | .pollFailed => .isFalse id
  | .poll revents _ nonblockResult =>
    inferInstanceAs (Decidable (revents 0 &&& pollIn ≠ 0 ∧ 0 ≤ nonblockResult))
  | .slot _ => .isFalse id

instance (answer : Answer) : Decidable answer.Allowed :=
  match answer with
  | .pollFailed => .isTrue trivial
  | .poll revents clientSocket nonblockResult => inferInstanceAs
      (Decidable ((Answer.poll revents clientSocket nonblockResult).Accepts → 0 < clientSocket))
  | .slot rbuf =>
    inferInstanceAs (Decidable ((rbuf.getD []).length ≤ EchoReply.Server.poll.size))

instance (slot : PollFd) : Decidable slot.Cleared :=
  inferInstanceAs (Decidable (slot.fd = 0 ∧ slot.events = 0))

instance (s : WaitClient) (answer : Answer) : Decidable (answer.KeepsSlots s) :=
  inferInstanceAs (Decidable (answer.Accepts → ∀ slot ∈ s.slots, ¬slot.Cleared))

instance (answer : Answer) : Decidable answer.ReplyFits :=
  match answer with
  | .pollFailed => .isTrue trivial
  | .poll _ _ _ => .isTrue trivial
  | .slot rbuf => inferInstanceAs (Decidable (EchoReply.Server.poll.Fits (rbuf.getD [])))

instance (s : WaitClient) (answer : Answer) : Decidable (answer.Fair s) :=
  inferInstanceAs (Decidable (answer.Allowed ∧ answer.KeepsSlots s ∧ answer.ReplyFits))

/-- Every slot has its event mask or was left by a client, and the clients are counted. -/
structure Pollable (slots : List PollFd) (useClient : ℤ) : Prop where
  events : ∀ slot ∈ slots, slot.events = pollIn ||| pollPri ∨ slot.Cleared
  count : useClient = slots.countP fun slot => 0 < slot.fd

variable {s s' : WaitClient} {slots : List PollFd} {useClient : ℤ} {answer : Answer} {i : ℕ}
  {slot : PollFd} {rbuf : Option (List UInt8)}

/-- Storing events changes neither masks nor descriptors. -/
theorem Pollable.mapIdx (h : Pollable slots useClient) (revents : ℕ → BitVec 16) :
    Pollable (slots.mapIdx fun i slot => { slot with revents := revents (i + 1) }) useClient := by
  refine ⟨fun slot hslot => ?_, ?_⟩
  · obtain ⟨i, hi, rfl⟩ := List.mem_mapIdx.mp hslot
    exact h.events slots[i] (List.getElem_mem hi)
  · rw [h.count, List.mapIdx_eq_zipIdx_map, List.countP_map]
    have hfst : slots = slots.zipIdx.map Prod.fst := by simp
    nth_rewrite 1 [hfst]
    rw [List.countP_map]
    rfl

/-- Changing one slot changes the number of clients by as much. -/
theorem Pollable.set {old : PollFd} (h : Pollable slots useClient) (new : PollFd)
    (hget : slots[i]? = some old) (hnew : new.events = pollIn ||| pollPri ∨ new.Cleared) :
    Pollable (slots.set i new)
      (useClient - (if 0 < old.fd then 1 else 0) + if 0 < new.fd then 1 else 0) := by
  have hbefore := Custody.perm_cons_eraseIdx hget
  have hafter := Custody.set_perm_cons_eraseIdx hget new
  refine ⟨fun slot hslot => ?_, ?_⟩
  · rcases List.mem_cons.mp (hafter.mem_iff.mp hslot) with rfl | hslot
    · exact hnew
    · exact h.events slot (hbefore.mem_iff.mpr (List.mem_cons_of_mem _ hslot))
  · rw [h.count, hbefore.countP_eq, hafter.countP_eq, List.countP_cons, List.countP_cons]
    simp only [decide_eq_true_eq]
    split_ifs <;> omega

/-- Placing a client in a slot that has its mask. -/
theorem Pollable.placeClient {clientSocket : ℤ} (h : Pollable s.slots s.useClient)
    (hclient : 0 < clientSocket) (hkept : ∀ slot ∈ s.slots, ¬slot.Cleared) :
    Pollable (s.placeClient clientSocket).slots (s.placeClient clientSocket).useClient := by
  unfold WaitClient.placeClient
  cases hfind : s.slots.findIdx? fun slot => slot.fd = 0 with
  | none => exact h
  | some i =>
    obtain ⟨hi, hzero, -⟩ := List.findIdx?_eq_some_iff_getElem.mp hfind
    have hget : s.slots[i]? = some s.slots[i] := List.getElem?_eq_getElem hi
    have hfd : s.slots[i].fd = 0 := of_decide_eq_true hzero
    have hmask : s.slots[i].events = pollIn ||| pollPri :=
      (h.events _ (List.getElem_mem hi)).resolve_right (hkept _ (List.getElem_mem hi))
    have hset := h.set { s.slots[i] with fd := clientSocket } hget (.inl hmask)
    simpa [List.modify_eq_set_getElem?, hget, hfd, hclient] using hset

/-- Handling a slot. -/
theorem Pollable.handleSlot (h : Pollable s.slots s.useClient) (hget : s.slots[i]? = some slot) :
    Pollable (s.handleSlot i slot rbuf).slots (s.handleSlot i slot rbuf).useClient := by
  unfold WaitClient.handleSlot
  split_ifs with hinput
  · have hset := h.set ⟨0, 0, 0⟩ hget (.inr ⟨rfl, rfl⟩)
    split
    · simpa [hinput.1] using hset
    · simpa [hinput.1] using hset
    · split <;> exact h
  · exact h

/-- A reply that fits is written inside of its buffer. -/
theorem WaitClient.handleSlot_overrun (hfits : EchoReply.Server.poll.Fits (rbuf.getD [])) :
    (s.handleSlot i slot rbuf).overrun = s.overrun := by
  unfold WaitClient.handleSlot
  split_ifs
  · split
    · rfl
    · rfl
    · rename_i bytes _
      obtain ⟨wbuf, hwbuf⟩ := Option.isSome_iff_exists.mp
        (EchoReply.Server.poll.isSome_reply_iff.mpr hfits)
      rw [Option.getD_some] at hwbuf
      rw [hwbuf]
  · rfl

/-- Every step that meets the condition keeps the slots pollable and stays inside of `wbuf`. -/
theorem Pollable.next (h : Pollable s.slots s.useClient) (hfair : answer.Fair s)
    (hnext : s.next answer = some s') : Pollable s'.slots s'.useClient ∧ s'.overrun = false := by
  obtain ⟨hallowed, hkeeps, hfits⟩ := hfair
  unfold WaitClient.next at hnext
  split_ifs at hnext with hoverrun
  rw [Bool.not_eq_true] at hoverrun
  cases hhandling : s.handling with
  | none =>
    cases answer with
    | pollFailed =>
      simp only [hhandling, Option.some_inj] at hnext
      exact hnext ▸ ⟨h, hoverrun⟩
    | poll revents clientSocket nonblockResult =>
      have hpolled := h.mapIdx revents
      simp only [hhandling] at hnext
      split_ifs at hnext with hlistener hfailed
      · cases hnext
        exact ⟨hpolled, hoverrun⟩
      · cases hnext
        have haccepts : (Answer.poll revents clientSocket nonblockResult).Accepts :=
          ⟨hlistener, Int.not_lt.mp hfailed⟩
        refine ⟨Pollable.placeClient (s := s.polled revents) hpolled (hallowed haccepts) ?_, ?_⟩
        · intro slot hslot
          obtain ⟨i, hi, rfl⟩ := List.mem_mapIdx.mp hslot
          exact hkeeps haccepts s.slots[i] (List.getElem_mem hi)
        · rw [← hoverrun, WaitClient.placeClient]
          split <;> rfl
      · cases hnext
        exact ⟨hpolled, hoverrun⟩
    | slot rbuf => simp [hhandling] at hnext
  | some i =>
    cases answer with
    | slot rbuf =>
      simp only [hhandling] at hnext
      obtain ⟨slot, hget, rfl⟩ := Option.map_eq_some_iff.mp hnext
      exact ⟨h.handleSlot hget, (s.handleSlot_overrun hfits).trans hoverrun⟩
    | _ => simp [hhandling] at hnext

/-- **Slots stay pollable.** In every state reached without accepting a client after one has
left its slot and without reading what no reply has room for, each slot with a client has the
mask it was initialised with, `useClient` is the number of such slots, and no reply was written
behind the end of its buffer. -/
theorem slots_stay_pollable (hreach : waitClient.ReachableUnder (fun s answer => answer.Fair s) s) :
    s.overrun = false ∧ (∀ slot ∈ s.slots, 0 < slot.fd → slot.events = pollIn ||| pollPri) ∧
      s.useClient = s.slots.countP fun slot => 0 < slot.fd := by
  have hinv : Pollable s.slots s.useClient ∧ s.overrun = false := by
    refine hreach.invariant (fun s => Pollable s.slots s.useClient ∧ s.overrun = false) ?_ ?_
    · rintro s ⟨serverSocket, rfl⟩
      exact ⟨⟨fun slot hslot => .inl (by rw [List.eq_of_mem_replicate hslot]), rfl⟩, rfl⟩
    · rintro s answer s' ⟨h, -⟩ hfair hnext
      exact h.next hfair hnext
  refine ⟨hinv.2, fun slot hslot hfd => (hinv.1.events slot hslot).resolve_right ?_, hinv.1.count⟩
  rintro ⟨hzero, -⟩
  omega

/-- A round of the loop in which a client is accepted and no slot has input. -/
def Answer.acceptRound (clientSocket : ℤ) : List Answer :=
  .poll (fun i => if i = 0 then pollIn else 0) clientSocket 0 :: List.replicate 10 (.slot none)

/-- A round of the loop in which the client in the first slot has input. -/
def Answer.readRound (rbuf : List UInt8) : List Answer :=
  .poll (fun i => if i = 1 then pollIn else 0) 0 0 :: .slot (some rbuf) ::
    List.replicate 9 (.slot none)

/-- Two clients are accepted, and the first one is answered and leaves. -/
theorem slots_stay_pollable_two_clients :
    ∃ s, waitClient.ReachableUnder (fun s answer => answer.Fair s) s ∧
      s.slots.map PollFd.fd = [0, 5, 0, 0, 0, 0, 0, 0, 0, 0] ∧ s.overrun = false ∧
      (∀ slot ∈ s.slots, 0 < slot.fd → slot.events = pollIn ||| pollPri) ∧
      s.useClient = s.slots.countP fun slot => 0 < slot.fd := by
  have hview : ((waitClient.guarded fun s answer => decide (answer.Fair s)).run (.initial 3)
      (Answer.acceptRound 4 ++ Answer.acceptRound 5 ++ Answer.readRound [104, 105] ++
        Answer.readRound [])).map (fun s => s.slots.map PollFd.fd) =
      some [0, 5, 0, 0, 0, 0, 0, 0, 0, 0] := by decide +kernel
  obtain ⟨s, hrun, hslots⟩ := Option.map_eq_some_iff.mp hview
  have hreach : waitClient.ReachableUnder (fun s answer => answer.Fair s) s :=
    .of_guarded_run (.start ⟨3, rfl⟩) (fun _ _ => of_decide_eq_true) hrun
  exact ⟨s, hreach, hslots, slots_stay_pollable hreach⟩

/-- A client leaves the first slot, and the client accepted next gets the slot with an empty
mask. -/
theorem slot_refilled_without_events :
    ∃ s, waitClient.ReachableUnder (fun _ answer => answer.Allowed) s ∧ s.overrun = false ∧
      ∃ slot ∈ s.slots, 0 < slot.fd ∧ slot.events ≠ pollIn ||| pollPri := by
  refine Machine.exists_reachableUnder ⟨3, rfl⟩ (fun _ answer => decide answer.Allowed)
    (fun _ _ => of_decide_eq_true)
    (Answer.acceptRound 4 ++ Answer.readRound [] ++ Answer.acceptRound 5)
    (fun s => s.overrun = false ∧ s.slots.head? = some ⟨5, 0, 0⟩) ⟨_, rfl, rfl, rfl⟩ ?_
  exact fun s _ ⟨hoverrun, hslot⟩ =>
    ⟨hoverrun, ⟨5, 0, 0⟩, List.mem_of_head? hslot, by decide, by decide⟩

end Hack.PollTcp
