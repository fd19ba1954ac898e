import Hack.MmapRing.Server

/-!
# The order in which the receive ring is read

`process_rx` keeps no position in the ring. Each call tests the frames from the first one
on, so what it returns next depends on where the kernel has stored packets in the meantime.
This file relates the order in which packets arrive to the order in which the server comes
to them, for the receive loop without `rx_flush`.
-/

namespace Hack.MmapRing

open Function

variable {n : ℕ} {frames : List (Fin n)}

/-- A server that tests the frames from `pos` on, and then starts over, comes to frame `i`
before frame `k`. -/
def Precedes (pos : ℕ) (i k : Fin n) : Prop :=
  if pos ≤ k then pos ≤ i ∧ i < k else pos ≤ i ∨ i < k

instance (pos : ℕ) (i k : Fin n) : Decidable (Precedes pos i k) :=
  inferInstanceAs (Decidable (ite _ _ _))

/-- The frames are listed in the order in which the server comes to them: to the first one
from `pos` on, and to the rest in calls of `process_rx` that start at frame 0. -/
def InScanOrder : ℕ → List (Fin n) → Prop
  | _, [] => True
  | pos, i :: rest => (∀ k ∈ rest, Precedes pos i k) ∧ InScanOrder 0 rest

/-- Whether frames are listed in that order can be computed. -/
def decidableInScanOrder : (pos : ℕ) → (frames : List (Fin n)) → Decidable (InScanOrder pos frames)
  | _, [] => isTrue trivial
  | _, _ :: rest => @instDecidableAnd _ _ _ (decidableInScanOrder 0 rest)

instance (pos : ℕ) (frames : List (Fin n)) : Decidable (InScanOrder pos frames) :=
  decidableInScanOrder pos frames

/-- A frame that is not listed can be passed. -/
theorem InScanOrder.succ {i : Fin n} (h : InScanOrder i frames) (hi : i ∉ frames) :
    InScanOrder (i + 1) frames := by
  cases frames with
  | nil => trivial
  | cons f rest =>
    obtain ⟨hfirst, hrest⟩ := h
    refine ⟨fun k hk => ?_, hrest⟩
    have hf : (f : ℕ) ≠ i := fun heq => hi (Fin.ext heq ▸ List.mem_cons_self)
    have hne : (k : ℕ) ≠ i := fun heq => hi (Fin.ext heq ▸ List.mem_cons_of_mem _ hk)
    have hprecedes := hfirst k hk
    unfold Precedes at hprecedes ⊢
    split_ifs at hprecedes ⊢ <;> omega

/-- After the last frame the server starts over. -/
theorem InScanOrder.wrap {pos : ℕ} (h : InScanOrder pos frames) (hpos : n ≤ pos) :
    InScanOrder 0 frames := by
  cases frames with
  | nil => trivial
  | cons f rest =>
    obtain ⟨hfirst, hrest⟩ := h
    refine ⟨fun k hk => ?_, hrest⟩
    have hprecedes := hfirst k hk
    unfold Precedes at hprecedes ⊢
    split_ifs at hprecedes ⊢ <;> omega

/-- A listed frame that the server has come to is the first one, and is listed once. -/
theorem InScanOrder.eq_cons {i : Fin n} (h : InScanOrder i frames) (hi : i ∈ frames) :
    ∃ rest, frames = i :: rest ∧ i ∉ rest ∧ InScanOrder 0 rest := by
  cases frames with
  | nil => cases hi
  | cons f rest =>
    obtain ⟨hfirst, hrest⟩ := h
    have hnot : i ∉ rest := by
      intro hmem
      have hprecedes := hfirst i hmem
      unfold Precedes at hprecedes
      rw [if_pos le_rfl] at hprecedes
      omega
    rcases List.mem_cons.mp hi with rfl | hmem
    · exact ⟨rest, rfl, hnot, hrest⟩
    · exact absurd hmem hnot

/-- The kernel fills the ring in cyclic order and marks no packet as a copy. -/
def CyclicStores (s : Server n) : Event n → Prop
  | .serve => True
  | .store i status _ => (i : ℕ) = s.stored.length % n ∧ isCopy status = false

instance (s : Server n) : DecidablePred (CyclicStores s)
  | .serve => inferInstanceAs (Decidable True)
  | .store _ _ _ => inferInstanceAs (Decidable (_ ∧ _))

/-- The condition on a step: the kernel stores a packet, not marked as a copy, only into a
frame to which the server comes after it has come to the frames with earlier packets, in
the order of their arrival. -/
def ScannedInOrder (s : Server n) : Event n → Prop
  | .serve => True
  | .store i status _ => isCopy status = false ∧ InScanOrder s.pc.pos (s.unviewed ++ [i])

instance (s : Server n) : DecidablePred (ScannedInOrder s)
  | .serve => inferInstanceAs (Decidable True)
  | .store _ _ _ => inferInstanceAs (Decidable (_ ∧ _))

/-- The packets that are not viewed yet are waiting in the order in which the server comes
to them. -/
structure Ordered (s : Server n) : Prop where
  order : InScanOrder s.pc.pos s.unviewed
  waiting : ∀ i, i ∈ s.unviewed ↔ isUser (s.ring i).status = true ∧ s.pc ≠ .release i
  plain : ∀ i, isCopy (s.ring i).status = false
  held : ∀ i ∈ s.pc.held, isUser (s.ring i).status = true
  running : ∀ i, s.pc ≠ .flush i
  log : s.stored = s.viewed ++ s.unviewed.map fun i => (s.ring i).packet

variable {s s' : Server n} {event : Event n} {i : Fin n}

/-- Moving on to a place with the same position and no other frame in hand keeps the order. -/
theorem Ordered.goto (h : Ordered s) {pc : Pc n} (horder : InScanOrder pc.pos s.unviewed)
    (hheld : ∀ i ∈ pc.held, isUser (s.ring i).status = true) (hflush : ∀ i, pc ≠ .flush i)
    (hpc : ∀ i, s.pc ≠ .release i) (hpc' : ∀ i, pc ≠ .release i) :
    Ordered { s with pc } := by
  refine ⟨horder, fun i => ?_, h.plain, hheld, hflush, h.log⟩
  rw [h.waiting i]
  exact ⟨fun hi => ⟨hi.1, hpc' i⟩, fun hi => ⟨hi.1, hpc i⟩⟩

/-- The packet that is viewed is the one that waits longest. -/
theorem Ordered.views (h : Ordered s) (hpc : s.pc = .view i) : Ordered { s with
      pc := .release i
      unviewed := s.unviewed.filter (· ≠ i)
      viewed := s.viewed ++ [(s.ring i).packet] } := by
  have huser : isUser (s.ring i).status = true := h.held i (by rw [hpc]; rfl)
  have hi : i ∈ s.unviewed := (h.waiting i).mpr ⟨huser, by simp [hpc]⟩
  have horder := h.order
  rw [hpc] at horder
  obtain ⟨rest, hunviewed, hnot, hrest⟩ := horder.eq_cons hi
  have hfilter : s.unviewed.filter (· ≠ i) = rest := by
    rw [hunviewed, List.filter_cons_of_neg (by simp), List.filter_eq_self]
    intro k hk
    exact decide_eq_true fun heq => hnot (heq ▸ hk)
  simp only [hfilter]
  refine ⟨hrest, fun k => ?_, h.plain, ?_, by simp, ?_⟩
  · have hwaiting := h.waiting k
    rw [hunviewed, List.mem_cons, hpc] at hwaiting
    by_cases hk : k = i
    · subst hk
      simp [hnot]
    · simpa [hk, Ne.symm hk] using hwaiting
  · rintro k hk
    cases hk
    exact huser
  · rw [h.log, hunviewed]
    simp

/-- A packet that is stored waits behind the others. -/
theorem Ordered.stores (h : Ordered s) {status : UInt32} {packet : List UInt8}
    (hkernel : (s.ring i).status = statusKernel) (huser : isUser status = true)
    (hcond : ScannedInOrder s (.store i status packet)) :
    Ordered { s with
      ring := update s.ring i ⟨status, packet⟩
      unviewed := s.unviewed ++ [i]
      stored := s.stored ++ [packet] } := by
  obtain ⟨hcopy, horder⟩ := hcond
  have hfree : isUser (s.ring i).status = false := by rw [hkernel]; rfl
  have hne : ∀ k ∈ s.unviewed, k ≠ i := by
    rintro k hk rfl
    simpa [hfree] using (h.waiting k).mp hk
  have hheld : ∀ k ∈ s.pc.held, k ≠ i := by
    rintro k hk rfl
    simpa [hfree] using h.held k hk
  have hrelease : s.pc ≠ .release i := fun hpc => hheld i (by rw [hpc]; rfl) rfl
  refine ⟨horder, fun k => ?_, ?_, fun k hk => ?_, h.running, ?_⟩
  · by_cases hk : k = i
    · subst hk
      simp [huser, hrelease]
    · simpa [hk, update_of_ne hk] using h.waiting k
  · exact (Function.forall_update_iff s.ring fun _ frame => isCopy frame.status = false).mpr
      ⟨hcopy, fun k _ => h.plain k⟩
  · simpa only [update_of_ne (hheld k hk)] using h.held k hk
  · have hmap : s.unviewed.map (fun k => (update s.ring i ⟨status, packet⟩ k).packet) =
        s.unviewed.map fun k => (s.ring k).packet :=
      List.map_congr_left fun k hk => by simp only [update_of_ne (hne k hk)]
    simp only [List.map_append, hmap, List.map_cons, List.map_nil, update_self, h.log,
      List.append_assoc]

section Steps

variable [NeZero n]

/-- The frame that is released has no packet that waits. -/
theorem Ordered.releases (h : Ordered s) (hpc : s.pc = .release i) :
    Ordered { s with ring := s.giveBack i, pc := .fetch 0, needsFlush := true } := by
  have hnot : i ∉ s.unviewed := fun hi => ((h.waiting i).mp hi).2 hpc
  have hne : ∀ k ∈ s.unviewed, k ≠ i := fun k hk heq => hnot (heq ▸ hk)
  have horder := h.order
  rw [hpc] at horder
  refine ⟨horder, fun k => ?_, ?_, by simp [Pc.held], by simp, ?_⟩
  · by_cases hk : k = i
    · subst hk
      simp [hnot, Server.giveBack]
    · simpa [Server.giveBack, update_of_ne hk, hpc, Ne.symm hk] using h.waiting k
  · exact (Function.forall_update_iff s.ring fun _ frame => isCopy frame.status = false).mpr
      ⟨isCopy_statusKernel, fun k _ => h.plain k⟩
  · rw [h.log]
    congr 1
    refine List.map_congr_left fun k hk => ?_
    simp only [Server.giveBack, update_of_ne (hne k hk)]

/-- Every step of the loop without `rx_flush` that meets the condition keeps the order. -/
theorem Ordered.moves (h : Ordered s) (hcond : ScannedInOrder s event)
    (hmoves : s.Moves false event s') : Ordered s' := by
  have horder := h.order
  cases hmoves with
  | @looks i pc hpc =>
    rcases hpc with ⟨hpc, rfl | rfl⟩ | ⟨hpc, rfl⟩ <;>
      exact h.goto (by simpa only [hpc, Pc.pos] using horder) (by simp [Pc.held]) (by simp)
        (by simp [hpc]) (by simp)
  | finds hpc huser =>
    exact h.goto (by simpa only [hpc, Pc.pos] using horder) (by simpa [Pc.held] using huser)
      (by simp) (by simp [hpc]) (by simp)
  | @passes i hpc hpassed =>
    have hpos := Server.pos_of_tests hpc
    have hnot : i ∉ s.unviewed := by
      intro hi
      have huser := ((h.waiting i).mp hi).1
      simp [received, huser, h.plain i] at hpassed
    have hrelease : ∀ k, s.pc ≠ .release k := by rcases hpc with hpc | hpc <;> simp [hpc]
    rw [hpos] at horder
    have hsucc := horder.succ hnot
    unfold Server.scanned
    simp only [Bool.false_and, Bool.false_eq_true, if_false]
    split_ifs with hlast
    · exact h.goto hsucc (by simp [Pc.held]) (by simp) hrelease (by simp)
    · exact h.goto (hsucc.wrap (by omega)) (by simp [Pc.held]) (by simp) hrelease (by simp)
  | returns hpc hcopy =>
    refine h.goto (by simpa only [hpc, Pc.pos] using horder) (fun k hk => h.held k ?_) (by simp)
      (by simp [hpc]) (by simp)
    simpa only [hpc, Pc.held] using hk
  | views hpc => exact h.views hpc
  | releases hpc => exact h.releases hpc
  | flushes hpc => exact absurd hpc (h.running _)
  | stores hkernel huser => exact h.stores hkernel huser hcond

/-- **Packets are viewed in the order of their arrival.** As long as the kernel stores a
packet only into a frame that the server comes to after the frames with earlier packets, the
packets that the server has viewed are the first ones that the kernel has stored, in the same
order. -/
theorem viewed_in_arrival_order (hreach : (receive n false).ReachableUnder ScannedInOrder s) :
    s.viewed <+: s.stored := by
  have hordered : Ordered s := by
    refine hreach.invariant Ordered ?_ ?_
    · rintro s rfl
      exact ⟨trivial, by simp [Server.initial], by simp [Server.initial],
        by simp [Server.initial, Pc.held], by simp [Server.initial], rfl⟩
    · exact fun s event s' h hcond hnext => h.moves hcond (Server.moves_of_next hnext)
  exact ⟨_, hordered.log.symm⟩

end Steps

/-- Two packets are in the ring of two frames at once, and are viewed in their order. -/
theorem viewed_in_arrival_order_two :
    ∃ s : Server 2, (receive 2 false).ReachableUnder ScannedInOrder s ∧
      s.stored = [[1], [2]] ∧ s.viewed = [[1], [2]] ∧ s.viewed <+: s.stored := by
  refine Machine.exists_reachableUnder rfl (fun s event => decide (ScannedInOrder s event))
    (fun _ _ => of_decide_eq_true) (.store 0 1 [1] :: .store 1 1 [2] :: List.replicate 13 .serve)
    (fun s => s.stored = [[1], [2]] ∧ s.viewed = [[1], [2]]) ⟨_, rfl, rfl, rfl⟩ ?_
  exact fun s hreach ⟨hstored, hviewed⟩ => ⟨hstored, hviewed, viewed_in_arrival_order hreach⟩

/-- The kernel fills both frames, the server views and releases the first one, and the kernel
fills it again. The server then comes to the third packet before the second. -/
theorem third_packet_overtakes : ∃ s : Server 2, (receive 2 false).ReachableUnder CyclicStores s ∧
      s.stored = [[1], [2], [3]] ∧ s.viewed = [[1], [3], [2]] := by
  exact Machine.exists_reachableUnder rfl (fun s event => decide (CyclicStores s event))
    (fun _ _ => of_decide_eq_true)
    (.store 0 1 [1] :: .store 1 1 [2] :: List.replicate 6 .serve ++
      .store 0 1 [3] :: List.replicate 13 .serve) _ ⟨_, rfl, rfl, rfl⟩ fun _ _ => id

end Hack.MmapRing
