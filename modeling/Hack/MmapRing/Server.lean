import Hack.Machine
import Mathlib.Algebra.GroupWithZero.Nat
import Mathlib.Data.Fin.Basic

/-!
# The receive ring of the raw socket server

This file embeds `process_rx`, `process_rx_release`, `rx_flush`, and the receive loop of
`do_serve` from `sock-raw-mmap-packet-ip/server/server.c`. The ring is shared with the
kernel, and every access to the status of a frame is a step of its own. The kernel stores a
packet into any frame that belongs to it. The server views a frame before it releases it,
but `rx_flush` then gives every frame back to the kernel, also a frame that was filled after
`process_rx` had passed it.
-/

namespace Hack.MmapRing

open Function

/-- `TP_STATUS_KERNEL`, the same value as `TP_STATUS_AVAILABLE`. -/
def statusKernel : UInt32 := 0

/-- The test of a status for `TP_STATUS_USER`. -/
def isUser (status : UInt32) : Bool := status &&& 1 != 0

/-- The test of a status for `TP_STATUS_COPY`. -/
def isCopy (status : UInt32) : Bool := status &&& 2 != 0

/-- A frame of the kernel does not pass the first test. -/
@[simp] theorem isUser_statusKernel : isUser statusKernel = false := by decide

/-- A frame of the kernel is not a copy. -/
@[simp] theorem isCopy_statusKernel : isCopy statusKernel = false := by decide

/-- A frame that `process_rx` returns when it comes to it. -/
def received (status : UInt32) : Bool := isUser status && !isCopy status

/-- A frame of the kernel is not received. -/
@[simp] theorem received_statusKernel : received statusKernel = false := by simp [received]

/-- A frame of the ring: its status and the bytes that were stored last. -/
structure Frame where
  status : UInt32
  packet : List UInt8

/-- Where the server is. -/
inductive Pc (n : ℕ)
  /-- `process_rx` is about to compare the status with `TP_STATUS_AVAILABLE`. -/
  | fetch (i : Fin n)
  /-- `process_rx` is in `poll`. -/
  | poll (i : Fin n)
  /-- `process_rx` is about to test for `TP_STATUS_USER`. -/
  | testUser (i : Fin n)
  /-- `process_rx` is about to test for `TP_STATUS_COPY`. -/
  | testCopy (i : Fin n)
  /-- `process_rx` has returned a frame, which is about to be viewed. -/
  | view (i : Fin n)
  /-- The frame is about to be released. -/
  | release (i : Fin n)
  /-- `rx_flush` is about to store to a frame. -/
  | flush (i : Fin n)
deriving DecidableEq

/-- The ring, the server, the frames whose packet was not viewed yet in the order in which
their packets were stored, and the packets stored and viewed so far. -/
structure Server (n : ℕ) where
  ring : Fin n → Frame
  pc : Pc n
  needsFlush : Bool
  unviewed : List (Fin n)
  stored : List (List UInt8)
  viewed : List (List UInt8)

/-- What happens next. -/
inductive Event (n : ℕ)
  /-- The server makes a step. -/
  | serve
  /-- The kernel stores a packet. -/
  | store (i : Fin n) (status : UInt32) (packet : List UInt8)

variable {n : ℕ}

/-- The frame from which on the server tests the frames before it starts over. -/
def Pc.pos : Pc n → ℕ
  | .fetch i => i
  | .poll i => i
  | .testUser i => i
  | .testCopy i => i
  | .view i => i
  | .release _ => 0
  | .flush _ => 0

/-- The frame that `process_rx` has found with `TP_STATUS_USER`. -/
def Pc.held : Pc n → Option (Fin n)
  | .testCopy i => some i
  | .view i => some i
  | .release i => some i
  | _ => none

/-- Frame `i` is tested again before `rx_flush` comes to it. If the test is not ahead, the
server does not flush yet, or another frame is still to be found and the tests then start
over. -/
structure Server.Spares (s : Server n) (i : Fin n) : Prop where
  flushed : ∀ j, s.pc = .flush j → i < j
  tested : s.needsFlush = false ∨ s.pc.pos ≤ i ∨
    ∃ k : Fin n, s.pc.pos ≤ k ∧ received (s.ring k).status = true

instance (s : Server n) (i : Fin n) : Decidable (s.Spares i) :=
  decidable_of_iff ((∀ j, s.pc = .flush j → i < j) ∧ (s.needsFlush = false ∨ s.pc.pos ≤ i ∨
      ∃ k : Fin n, s.pc.pos ≤ k ∧ received (s.ring k).status = true))
    ⟨fun h => ⟨h.1, h.2⟩, fun h => ⟨h.flushed, h.tested⟩⟩

/-- The condition on a step: the kernel stores a packet, unless it marks the packet as a
copy, only into a frame that is tested again before `rx_flush` comes to it. -/
def SparedByFlush (s : Server n) : Event n → Prop
  | .serve => True
  | .store i status _ => received status = true → s.Spares i

instance (s : Server n) : DecidablePred (SparedByFlush s)
  | .serve => inferInstanceAs (Decidable True)
  | .store i status _ => inferInstanceAs (Decidable (received status = true → s.Spares i))

/-- The server gives a frame to the kernel. -/
def Server.giveBack (s : Server n) (i : Fin n) : Fin n → Frame :=
  update s.ring i { s.ring i with status := statusKernel }

/-- A frame that was given back is not received, and the others are as they were. -/
theorem Server.received_giveBack {s : Server n} {i k : Fin n}
    (hreceived : received (s.giveBack i k).status = true) :
    k ≠ i ∧ received (s.ring k).status = true := by
  by_cases hk : k = i
  · subst hk
    simp [Server.giveBack] at hreceived
  · rw [Server.giveBack, update_of_ne hk] at hreceived
    exact ⟨hk, hreceived⟩

/-- The position while a frame is tested. -/
theorem Server.pos_of_tests {s : Server n} {i : Fin n}
    (hpc : s.pc = .testUser i ∨ s.pc = .testCopy i) : s.pc.pos = i := by
  rcases hpc with hpc | hpc <;> rw [hpc, Pc.pos]

/-- Every frame with a packet for the server is tested again before `rx_flush` comes to it. -/
structure Spared (s : Server n) : Prop where
  spares : ∀ i, received (s.ring i).status = true → s.Spares i
  held : ∀ i ∈ s.pc.held, isUser (s.ring i).status = true
  viewed : ∀ i, s.pc = .release i → i ∉ s.unviewed

/-- A packet that is stored into a frame to be tested again. -/
theorem Spared.stores {s : Server n} {i : Fin n} {status : UInt32} {packet : List UInt8}
    (h : Spared s) (hkernel : (s.ring i).status = statusKernel)
    (hcond : SparedByFlush s (.store i status packet)) :
    Spared { s with
      ring := update s.ring i ⟨status, packet⟩
      unviewed := s.unviewed ++ [i]
      stored := s.stored ++ [packet] } := by
  have hheld : ∀ k ∈ s.pc.held, k ≠ i := by
    rintro k hk rfl
    have hheld := h.held k hk
    rw [hkernel] at hheld
    cases hheld
  -- A frame that was still to be found is not the one that the kernel had.
  have hspares : ∀ k, s.Spares k → ({ s with
      ring := update s.ring i ⟨status, packet⟩
      unviewed := s.unviewed ++ [i]
      stored := s.stored ++ [packet] } : Server n).Spares k := by
    rintro k ⟨hflushed, htested⟩
    refine ⟨hflushed, htested.imp_right (Or.imp_right ?_)⟩
    rintro ⟨k', hle, hk'⟩
    have hne : k' ≠ i := by
      rintro rfl
      simp [hkernel] at hk'
    exact ⟨k', hle, by simpa only [update_of_ne hne] using hk'⟩
  refine ⟨fun k hk => hspares k ?_, fun k hk => ?_, fun k hk => ?_⟩
  · by_cases hki : k = i
    · subst hki
      simp only [update_self] at hk
      exact hcond hk
    · simp only [update_of_ne hki] at hk
      exact h.spares k hk
  · simpa only [update_of_ne (hheld k hk)] using h.held k hk
  · have hne : k ≠ i := hheld k (by rw [hk]; rfl)
    simpa [hne] using h.viewed k hk

section Steps

variable [NeZero n]

/-- The server at its first call of `process_rx`. -/
def Server.initial : Server n := ⟨fun _ => ⟨statusKernel, []⟩, .fetch 0, false, [], [], []⟩

/-- `process_rx` goes on after frame `i`. After the last frame it returns `NULL`, and the
loop calls `rx_flush`, if it does that at all, once a frame was released. -/
def Server.scanned (s : Server n) (flushes : Bool) (i : Fin n) : Pc n :=
  if h : i + 1 < n then .fetch ⟨i + 1, h⟩
  else if flushes && s.needsFlush then .flush 0 else .fetch 0

/-- A step of the server. -/
def Server.serve (s : Server n) (flushes : Bool) : Server n :=
  match s.pc with
  | .fetch i =>
    { s with pc := if (s.ring i).status ≠ statusKernel then .poll i else .testUser i }
  | .poll i => { s with pc := .testUser i }
  | .testUser i =>
    { s with pc := if isUser (s.ring i).status then .testCopy i else s.scanned flushes i }
  | .testCopy i =>
    { s with pc := if isCopy (s.ring i).status then s.scanned flushes i else .view i }
  | .view i =>
    { s with
      pc := .release i
      unviewed := s.unviewed.filter (· ≠ i)
      viewed := s.viewed ++ [(s.ring i).packet] }
  | .release i => { s with ring := s.giveBack i, pc := .fetch 0, needsFlush := true }
  | .flush i =>
    { s with
      ring := s.giveBack i
      pc := if h : i + 1 < n then .flush ⟨i + 1, h⟩ else .fetch 0
      unviewed := s.unviewed.filter (· ≠ i) }

/-- The state after a step. -/
def Server.next (flushes : Bool) (s : Server n) : Event n → Option (Server n)
  | .serve => some (s.serve flushes)
  | .store i status packet =>
    if (s.ring i).status = statusKernel ∧ isUser status then
      some { s with
        ring := update s.ring i ⟨status, packet⟩
        unviewed := s.unviewed ++ [i]
        stored := s.stored ++ [packet] }
    else none

/-- The receive loop, with or without its call of `rx_flush`. -/
def receive (n : ℕ) [NeZero n] (flushes : Bool) : Machine (Server n) (Event n) where
  start s := s = .initial
  next := Server.next flushes

/-- The receive loop of `do_serve`. -/
def doServe (n : ℕ) [NeZero n] : Machine (Server n) (Event n) := receive n true

variable {flushes : Bool} {s s' : Server n} {event : Event n} {i : Fin n}

/-- What a step does. -/
inductive Server.Moves (flushes : Bool) (s : Server n) : Event n → Server n → Prop
  /-- `process_rx` stays with a frame. -/
  | looks {i : Fin n} {pc : Pc n} :
      s.pc = .fetch i ∧ (pc = .poll i ∨ pc = .testUser i) ∨ s.pc = .poll i ∧ pc = .testUser i →
      Moves flushes s .serve { s with pc }
  | finds {i : Fin n} : s.pc = .testUser i → isUser (s.ring i).status = true →
      Moves flushes s .serve { s with pc := .testCopy i }
  | passes {i : Fin n} : s.pc = .testUser i ∨ s.pc = .testCopy i →
      received (s.ring i).status = false →
      Moves flushes s .serve { s with pc := s.scanned flushes i }
  | returns {i : Fin n} : s.pc = .testCopy i → isCopy (s.ring i).status = false →
      Moves flushes s .serve { s with pc := .view i }
  | views {i : Fin n} : s.pc = .view i → Moves flushes s .serve
      { s with
        pc := .release i
        unviewed := s.unviewed.filter (· ≠ i)
        viewed := s.viewed ++ [(s.ring i).packet] }
  | releases {i : Fin n} : s.pc = .release i → Moves flushes s .serve
      { s with ring := s.giveBack i, pc := .fetch 0, needsFlush := true }
  | flushes {i : Fin n} : s.pc = .flush i → Moves flushes s .serve
      { s with
        ring := s.giveBack i
        pc := if h : i + 1 < n then .flush ⟨i + 1, h⟩ else .fetch 0
        unviewed := s.unviewed.filter (· ≠ i) }
  | stores {i : Fin n} {status : UInt32} {packet : List UInt8} :
      (s.ring i).status = statusKernel → isUser status = true →
      Moves flushes s (.store i status packet)
      { s with
        ring := update s.ring i ⟨status, packet⟩
        unviewed := s.unviewed ++ [i]
        stored := s.stored ++ [packet] }

/-- Every step does one of these. -/
theorem Server.moves_of_next (hnext : s.next flushes event = some s') :
    s.Moves flushes event s' := by
  cases event with
  | serve =>
    obtain rfl : s.serve flushes = s' := Option.some_inj.mp hnext
    cases hpc : s.pc with
    | fetch i =>
      simp only [Server.serve, hpc]
      split_ifs
      · exact .looks (i := i) (.inl ⟨hpc, .inl rfl⟩)
      · exact .looks (i := i) (.inl ⟨hpc, .inr rfl⟩)
    | poll i =>
      simp only [Server.serve, hpc]
      exact .looks (i := i) (.inr ⟨hpc, rfl⟩)
    | testUser i =>
      simp only [Server.serve, hpc]
      split_ifs with huser
      · exact .finds hpc huser
      · exact .passes (.inl hpc) (by simp [received, huser])
    | testCopy i =>
      simp only [Server.serve, hpc]
      split_ifs with hcopy
      · exact .passes (.inr hpc) (by simp [received, hcopy])
      · exact .returns hpc (Bool.not_eq_true _ ▸ hcopy)
    | view i =>
      simp only [Server.serve, hpc]
      exact .views hpc
    | release i =>
      simp only [Server.serve, hpc]
      exact .releases hpc
    | flush i =>
      simp only [Server.serve, hpc]
      exact .flushes hpc
  | store i status packet =>
    simp only [Server.next] at hnext
    split_ifs at hnext with hstore
    cases hnext
    exact .stores hstore.1 hstore.2

/-- After the last frame nothing received is left for `rx_flush`. -/
theorem Spared.scanned (h : Spared s) (hpc : s.pc = .testUser i ∨ s.pc = .testCopy i)
    (hpassed : received (s.ring i).status = false) {k : Fin n}
    (hk : received (s.ring k).status = true) :
    ({ s with pc := s.scanned flushes i } : Server n).Spares k := by
  have hpos := Server.pos_of_tests hpc
  have hne : ∀ k : Fin n, received (s.ring k).status = true → (k : ℕ) ≠ i := by
    intro k hk heq
    rw [Fin.ext heq, hpassed] at hk
    cases hk
  have htested := (h.spares k hk).tested
  simp only [hpos] at htested
  unfold Server.scanned
  split_ifs with hlast hflush
  · refine ⟨by simp, ?_⟩
    rcases htested with hneeds | hle | ⟨k', hle, hk'⟩
    · exact .inl hneeds
    · exact .inr (.inl (by have := hne k hk; simp only [Pc.pos]; omega))
    · exact .inr (.inr ⟨k', by have := hne k' hk'; simp only [Pc.pos]; omega, hk'⟩)
  · rcases htested with hneeds | hle | ⟨k', hle, hk'⟩
    · simp [hneeds] at hflush
    · have := hne k hk
      omega
    · have := hne k' hk'
      omega
  · exact ⟨by simp, .inr (.inl (by simp [Pc.pos]))⟩

/-- Every step that meets the condition keeps the frames spared. -/
theorem Spared.moves (h : Spared s) (hcond : SparedByFlush s event)
    (hmoves : s.Moves flushes event s') : Spared s' := by
  cases hmoves with
  | @looks i pc hpc =>
    have hpos : pc.pos = s.pc.pos ∧ pc.held = none ∧ ∀ j, pc ≠ .flush j ∧ pc ≠ .release j := by
      rcases hpc with ⟨hpc, rfl | rfl⟩ | ⟨hpc, rfl⟩ <;> simp [hpc, Pc.pos, Pc.held]
    obtain ⟨hpos, hheld, hpc⟩ := hpos
    refine ⟨fun k hk => ⟨fun j hj => absurd hj (hpc j).1, ?_⟩, by simp [hheld],
      fun k hj => absurd hj (hpc k).2⟩
    simpa only [hpos] using (h.spares k hk).tested
  | @finds i hpc huser =>
    refine ⟨fun k hk => ⟨by simp, ?_⟩, by simpa [Pc.held] using huser, by simp⟩
    simpa only [hpc, Pc.pos] using (h.spares k hk).tested
  | passes hpc hpassed =>
    refine ⟨fun k hk => h.scanned hpc hpassed hk, ?_, ?_⟩
    · unfold Server.scanned
      split_ifs <;> simp [Pc.held]
    · unfold Server.scanned
      split_ifs <;> simp
  | @returns i hpc hcopy =>
    refine ⟨fun k hk => ⟨by simp, ?_⟩, fun k hk => h.held k ?_, by simp⟩
    · simpa only [hpc, Pc.pos] using (h.spares k hk).tested
    · simpa only [hpc, Pc.held] using hk
  | @views i hpc =>
    refine ⟨fun k _ => ⟨by simp, .inr (.inl (Nat.zero_le _))⟩, fun k hk => h.held k ?_, ?_⟩
    · simpa only [hpc, Pc.held] using hk
    · rintro k hk
      cases hk
      simp
  | releases hpc => exact ⟨fun k _ => ⟨by simp, .inr (.inl (Nat.zero_le _))⟩, by simp [Pc.held],
      by simp⟩
  | @flushes i hpc =>
    refine ⟨fun k hk => ?_, ?_, ?_⟩
    · obtain ⟨-, hk⟩ := Server.received_giveBack hk
      have hlt := (h.spares k hk).flushed i hpc
      split_ifs
      · refine ⟨fun j hj => ?_, .inr (.inl (Nat.zero_le _))⟩
        cases hj
        exact Nat.lt_succ_of_lt hlt
      · exact ⟨by simp, .inr (.inl (Nat.zero_le _))⟩
    · split_ifs <;> simp [Pc.held]
    · split_ifs <;> simp
  | stores hkernel => exact h.stores hkernel hcond

/-- **No received frame is dropped.** As long as the kernel stores packets only into frames
that are tested again before `rx_flush` comes to them, a frame with `TP_STATUS_USER` and
without `TP_STATUS_COPY` is set back to `TP_STATUS_KERNEL` only after its packet has been
viewed. -/
theorem given_back_after_view (hreach : (doServe n).ReachableUnder SparedByFlush s)
    (hnext : (doServe n).next s event = some s') (huser : isUser (s.ring i).status = true)
    (hcopy : isCopy (s.ring i).status = false)
    (hkernel : (s'.ring i).status = statusKernel) : i ∉ s.unviewed := by
  have hspared : Spared s := by
    refine hreach.invariant Spared ?_ ?_
    · rintro s rfl
      exact ⟨fun i hi => by simp [Server.initial] at hi, by simp [Server.initial, Pc.held],
        by simp [Server.initial]⟩
    · exact fun s event s' h hcond hnext => h.moves hcond (Server.moves_of_next hnext)
  have hchanged : (s'.ring i).status ≠ (s.ring i).status := by
    intro heq
    rw [← heq, hkernel] at huser
    cases huser
  cases Server.moves_of_next hnext with
  | looks | finds | passes | returns | views => exact absurd rfl hchanged
  | @releases j hpc =>
    by_cases hij : i = j
    · exact hij ▸ hspared.viewed j hpc
    · exact absurd (congrArg Frame.status (update_of_ne hij _ _)) hchanged
  | @flushes j hpc =>
    by_cases hij : i = j
    · have hlt := (hspared.spares i (by simp [received, huser, hcopy])).flushed j hpc
      exact absurd hij (Fin.ne_of_lt hlt)
    · exact absurd (congrArg Frame.status (update_of_ne hij _ _)) hchanged
  | @stores j status packet hfree hstatus =>
    by_cases hij : i = j
    · subst hij
      simp only [update_self] at hkernel
      rw [hkernel] at hstatus
      cases hstatus
    · exact absurd (congrArg Frame.status (update_of_ne hij _ _)) hchanged

end Steps

/-- With two frames, the second packet arrives after the first frame was released, ahead of
`process_rx`. It is viewed before its frame is given back. -/
theorem given_back_after_view_ahead :
    ∃ s s' : Server 2, (doServe 2).ReachableUnder SparedByFlush s ∧
      (doServe 2).next s .serve = some s' ∧ s.stored = [[7], [8]] ∧
      isUser (s.ring 1).status = true ∧ (s'.ring 1).status = statusKernel ∧ 1 ∉ s.unviewed := by
  -- The run is evaluated by the kernel, once for all of its results.
  have heval : (((doServe 2).guarded fun s event => decide (SparedByFlush s event)).run .initial
      (.store 0 1 [7] :: List.replicate 6 .serve ++
        .store 1 1 [8] :: List.replicate 7 .serve)).any (fun s =>
          ((doServe 2).next s .serve).any fun s' => s.stored = [[7], [8]] ∧
            isUser (s.ring 1).status = true ∧ isCopy (s.ring 1).status = false ∧
            (s'.ring 1).status = statusKernel) = true := by decide +kernel
  obtain ⟨s, hrun, heval⟩ := (Option.any_eq_true _ _).mp heval
  obtain ⟨s', hnext, heval⟩ := (Option.any_eq_true _ _).mp heval
  obtain ⟨hstored, huser, hcopy, hkernel⟩ := of_decide_eq_true heval
  have hreach : (doServe 2).ReachableUnder SparedByFlush s :=
    .of_guarded_run (.start rfl) (fun _ _ => of_decide_eq_true) hrun
  exact ⟨s, s', hreach, hnext, hstored, huser, hkernel,
    given_back_after_view hreach hnext huser hcopy hkernel⟩

/-- With two frames, the second packet arrives when `process_rx` has passed both. `rx_flush`
gives its frame back although the packet was not viewed. -/
theorem flush_drops_packet :
    ∃ s s' : Server 2, (doServe 2).Reachable s ∧ (doServe 2).next s .serve = some s' ∧
      isUser (s.ring 1).status = true ∧ isCopy (s.ring 1).status = false ∧
      (s'.ring 1).status = statusKernel ∧ 1 ∈ s.unviewed := by
  have heval : ((doServe 2).run .initial
      (.store 0 1 [7] :: List.replicate 10 .serve ++ [.store 1 1 [8], .serve])).any (fun s =>
        ((doServe 2).next s .serve).any fun s' =>
          isUser (s.ring 1).status = true ∧ isCopy (s.ring 1).status = false ∧
          (s'.ring 1).status = statusKernel ∧ s.unviewed = [1]) = true := by decide +kernel
  obtain ⟨s, hrun, heval⟩ := (Option.any_eq_true _ _).mp heval
  obtain ⟨s', hnext, heval⟩ := (Option.any_eq_true _ _).mp heval
  obtain ⟨huser, hcopy, hkernel, hunviewed⟩ := of_decide_eq_true heval
  exact ⟨s, s', .of_run (.start rfl) hrun, hnext, huser, hcopy, hkernel, by simp [hunviewed]⟩

end Hack.MmapRing
