import Hack.Custody
import Hack.Machine
import Mathlib.Algebra.GroupWithZero.Nat
import Mathlib.Data.Fin.Basic

/-!
# The connection slots of the forking HTTP server

This file embeds `serve_forever` of `nat-server/nat_httpd.c`, and of `respond` what it does
with the array `clients`, which the parent shares with its children. The parent stores an
accepted descriptor in a free slot and forks a child for it. The child reads the descriptor
from the slot and frees the slot as its last access. The parent also takes the descriptor
that it closes from the slot, and a child that is fast enough has freed the slot by then. A
step is one access to the array, one `fork`, or one call on a descriptor by the parent.
-/

namespace Hack.NatServer

open Function

/-- `MAX_CONNECTIONS`. -/
def maxConnections : ℕ := 1000

instance : NeZero maxConnections := ⟨by decide⟩

/-- Where the parent is in its loop. Up to the test after `fork` the descriptor that was
accepted is noted, though the program only keeps it in the slot. -/
inductive ParentPc
  /-- It waits in `accept`. -/
  | accept
  /-- It is about to store what `accept` returned. -/
  | store (fd : ℤ)
  /-- It is about to test the slot. -/
  | check (fd : ℤ)
  /-- It is about to fork. -/
  | fork (fd : ℤ)
  /-- It is about to read from the slot what it closes. -/
  | readClose (fd : ℤ)
  /-- It is about to close a descriptor. -/
  | close (fd : ℤ)
  /-- It looks for a free slot. -/
  | scan
  /-- It has called `exit`. -/
  | exited
deriving DecidableEq

/-- Where a child is. -/
inductive ChildPc
  /-- It is about to read the slot for `recv`. -/
  | recv
  /-- It is about to read the slot for `dup2` and `close` in `respond`. -/
  | readFd
  /-- It is about to read the slot for the `close` after `respond`. -/
  | readClose
  /-- It is about to free the slot. -/
  | store
deriving DecidableEq

/-- A live child: its slot, the descriptor that was accepted for it, and where it is. -/
structure Child where
  slot : Fin maxConnections
  accepted : ℤ
  pc : ChildPc
deriving DecidableEq

/-- The shared array, the parent, the live children, and the descriptors that `accept` has
returned to the parent and that the parent has closed. -/
structure Server where
  clients : Fin maxConnections → ℤ
  slot : Fin maxConnections
  parent : ParentPc
  children : List Child
  accepts : List ℤ
  closes : List ℤ

/-- What happens next. -/
inductive Step
  /-- `accept` returns to the parent. -/
  | accept (fd : ℤ)
  /-- `fork` returns to the parent, with a child or not. -/
  | fork (forked : Bool)
  /-- The parent makes another step. -/
  | parent
  /-- A child makes a step. After `recv` it depends on the request whether the slot is read
  for a response. -/
  | child (i : ℕ) (received : Bool)
  /-- A child is killed, for example by a malformed request. -/
  | die (i : ℕ)

/-- The server before its first `accept`. -/
def Server.initial : Server := ⟨fun _ => -1, 0, .accept, [], [], []⟩

/-- A step of the parent between `accept` and `fork` or between `fork` and `accept`. -/
def Server.parentStep (s : Server) : Option Server :=
  match s.parent with
  | .store fd =>
    some { s with clients := update s.clients s.slot fd, parent := .check fd }
  | .check fd => some { s with parent := if s.clients s.slot < 0 then .exited else .fork fd }
  | .readClose _ => some { s with parent := .close (s.clients s.slot) }
  | .close fd => some { s with closes := s.closes ++ [fd], parent := .scan }
  | .scan =>
    some (if s.clients s.slot ≠ -1 then { s with slot := s.slot + 1 }
      else { s with parent := .accept })
  | _ => none

/-- The step of a child after which it is somewhere else, `none` if it frees its slot. -/
def Child.advance (c : Child) (received : Bool) : Option Child :=
  match c.pc with
  | .recv => some { c with pc := if received then .readFd else .readClose }
  | .readFd => some { c with pc := .readClose }
  | .readClose => some { c with pc := .store }
  | .store => none

/-- The state after a step. -/
def Server.next (s : Server) : Step → Option Server
  | .accept fd =>
    if s.parent = .accept then
      some { s with
        parent := .store fd
        accepts := if fd < 0 then s.accepts else s.accepts ++ [fd] }
    else none
  | .fork forked =>
    match s.parent with
    | .fork fd =>
      some { s with
        parent := .readClose fd
        children := if forked then s.children ++ [⟨s.slot, fd, .recv⟩] else s.children }
    | _ => none
  | .parent => s.parentStep
  | .child i received =>
    (s.children[i]?).map fun c =>
      match c.advance received with
      | some c' => { s with children := s.children.set i c' }
      | none => { s with
          clients := update s.clients c.slot (-1), children := s.children.eraseIdx i }
  | .die i => some { s with children := s.children.eraseIdx i }

/-- `serve_forever` with its children as a machine. -/
def serveForever : Machine Server Step where
  start s := s = .initial
  next := Server.next

variable {s s' : Server} {step : Step} {c c' : Child} {received : Bool} {i : ℕ}

/-- What a step does. -/
inductive Server.Moves (s : Server) : Step → Server → Prop
  | accept {fd : ℤ} : s.parent = .accept → Moves s (.accept fd)
      { s with parent := .store fd, accepts := if fd < 0 then s.accepts else s.accepts ++ [fd] }
  | forks {fd : ℤ} : s.parent = .fork fd → Moves s (.fork true)
      { s with parent := .readClose fd, children := s.children ++ [⟨s.slot, fd, .recv⟩] }
  | forkFails {fd : ℤ} : s.parent = .fork fd → Moves s (.fork false)
      { s with parent := .readClose fd }
  | store {fd : ℤ} : s.parent = .store fd → Moves s .parent
      { s with clients := update s.clients s.slot fd, parent := .check fd }
  | exits {fd : ℤ} : s.parent = .check fd → s.clients s.slot < 0 → Moves s .parent
      { s with parent := .exited }
  | checks {fd : ℤ} : s.parent = .check fd → 0 ≤ s.clients s.slot → Moves s .parent
      { s with parent := .fork fd }
  | readClose {fd : ℤ} : s.parent = .readClose fd → Moves s .parent
      { s with parent := .close (s.clients s.slot) }
  | close {fd : ℤ} : s.parent = .close fd → Moves s .parent
      { s with closes := s.closes ++ [fd], parent := .scan }
  | skips : s.parent = .scan → Moves s .parent { s with slot := s.slot + 1 }
  | finds : s.parent = .scan → s.clients s.slot = -1 → Moves s .parent { s with parent := .accept }
  | advances {i : ℕ} {received : Bool} {c c' : Child} : s.children[i]? = some c →
      c'.slot = c.slot → c'.accepted = c.accepted → Moves s (.child i received)
      { s with children := s.children.set i c' }
  | frees {i : ℕ} {received : Bool} {c : Child} : s.children[i]? = some c → c.pc = .store →
      Moves s (.child i received)
      { s with
        clients := update s.clients c.slot (-1), children := s.children.eraseIdx i }
  | dies {i : ℕ} : Moves s (.die i) { s with children := s.children.eraseIdx i }

/-- A child keeps its slot and its descriptor until it frees the slot. -/
theorem Child.advance_cases (c : Child) (received : Bool) :
    c.advance received = none ∧ c.pc = .store ∨
      ∃ c', c.advance received = some c' ∧ c'.slot = c.slot ∧ c'.accepted = c.accepted := by
  unfold Child.advance
  cases c.pc with
  | store => exact .inl ⟨rfl, rfl⟩
  | _ => exact .inr ⟨_, rfl, rfl, rfl⟩

/-- Every step does one of these. -/
theorem Server.moves_of_next (hnext : s.next step = some s') : s.Moves step s' := by
  cases step with
  | accept fd =>
    simp only [Server.next] at hnext
    split at hnext
    · rename_i hparent
      cases hnext
      exact .accept hparent
    · cases hnext
  | fork forked =>
    cases hparent : s.parent with
    | fork fd =>
      simp only [Server.next, hparent, Option.some_inj] at hnext
      subst hnext
      cases forked with
      | false => exact .forkFails hparent
      | true => exact .forks hparent
    | _ => simp [Server.next, hparent] at hnext
  | parent =>
    cases hparent : s.parent with
    | store fd =>
      simp only [Server.next, Server.parentStep, hparent, Option.some_inj] at hnext
      exact hnext ▸ .store hparent
    | check fd =>
      simp only [Server.next, Server.parentStep, hparent, Option.some_inj] at hnext
      subst hnext
      split_ifs with hneg
      · exact .exits hparent hneg
      · exact .checks hparent (by omega)
    | readClose fd =>
      simp only [Server.next, Server.parentStep, hparent, Option.some_inj] at hnext
      exact hnext ▸ .readClose hparent
    | close fd =>
      simp only [Server.next, Server.parentStep, hparent, Option.some_inj] at hnext
      exact hnext ▸ .close hparent
    | scan =>
      simp only [Server.next, Server.parentStep, hparent, Option.some_inj] at hnext
      split_ifs at hnext with hused
      · exact hnext ▸ hparent ▸ .skips hparent
      · exact hnext ▸ .finds hparent (not_not.mp hused)
    | _ => simp [Server.next, Server.parentStep, hparent] at hnext
  | child i received =>
    obtain ⟨c, hget, rfl⟩ := Option.map_eq_some_iff.mp hnext
    rcases c.advance_cases received with ⟨hnone, hpc⟩ | ⟨c', hsome, hslot, haccepted⟩
    · rw [hnone]
      exact .frees hget hpc
    · rw [hsome]
      exact .advances hget hslot haccepted
  | die i =>
    cases hnext
    exact .dies

/-- What the parent relies on: the slot is free until a descriptor is stored in it, and then
holds the descriptor, without a child, until the fork. -/
def Server.ParentReady (s : Server) : Prop :=
  match s.parent with
  | .accept => s.clients s.slot = -1
  | .store _ => s.clients s.slot = -1
  | .check fd => s.clients s.slot = fd ∧ ∀ c ∈ s.children, c.slot ≠ s.slot
  | .fork fd => s.clients s.slot = fd ∧ 0 ≤ fd ∧ ∀ c ∈ s.children, c.slot ≠ s.slot
  | _ => True

/-- The children have slots of their own, with the descriptors accepted for them. -/
structure Exclusive (s : Server) : Prop where
  nodup : (s.children.map Child.slot).Nodup
  holds : ∀ c ∈ s.children, s.clients c.slot = c.accepted ∧ 0 ≤ c.accepted
  ready : s.ParentReady

/-- A free slot has no child. -/
theorem Exclusive.ne_slot (h : Exclusive s) (hfree : s.clients s.slot = -1) :
    ∀ c ∈ s.children, c.slot ≠ s.slot := by
  intro c hc hslot
  obtain ⟨hholds, hnonneg⟩ := h.holds c hc
  rw [hslot, hfree] at hholds
  omega

/-- What the parent relies on, where it is. -/
theorem Exclusive.ready_at (h : Exclusive s) {pc : ParentPc} (hparent : s.parent = pc) :
    ({ s with parent := pc } : Server).ParentReady := by
  subst hparent
  exact h.ready

/-- The parent does not care where the children are, as long as they stay on their slots. -/
theorem Server.ParentReady.of_slots (hready : s.ParentReady) {children : List Child}
    (hslots : ∀ c ∈ children, ∃ c' ∈ s.children, c'.slot = c.slot) :
    ({ s with children } : Server).ParentReady := by
  have hne : (∀ c ∈ s.children, c.slot ≠ s.slot) → ∀ c ∈ children, c.slot ≠ s.slot := by
    intro hne c hc
    obtain ⟨c', hc', heq⟩ := hslots c hc
    exact heq ▸ hne c' hc'
  unfold Server.ParentReady at hready ⊢
  cases hparent : s.parent with
  | check fd =>
    simp only [hparent] at hready ⊢
    exact ⟨hready.1, hne hready.2⟩
  | fork fd =>
    simp only [hparent] at hready ⊢
    exact ⟨hready.1, hready.2.1, hne hready.2.2⟩
  | accept | store => simpa only [hparent] using hready
  | _ => trivial

/-- A child frees its slot. The parent relies on the slot only while it is free already. -/
theorem Server.ParentReady.free (hready : s.ParentReady) (hc : c ∈ s.children) :
    ({ s with clients := update s.clients c.slot (-1) } : Server).ParentReady := by
  have hother : c.slot ≠ s.slot →
      update s.clients c.slot (-1) s.slot = s.clients s.slot := fun hne =>
    update_of_ne hne.symm _ _
  have hfree : s.clients s.slot = -1 → update s.clients c.slot (-1) s.slot = -1 := by
    intro hfree
    by_cases hslot : c.slot = s.slot
    · rw [hslot, update_self]
    · rw [hother hslot, hfree]
  unfold Server.ParentReady at hready ⊢
  cases hparent : s.parent with
  | accept | store =>
    simp only [hparent] at hready ⊢
    exact hfree hready
  | check fd =>
    simp only [hparent] at hready ⊢
    exact ⟨(hother (hready.2 c hc)).trans hready.1, hready.2⟩
  | fork fd =>
    simp only [hparent] at hready ⊢
    exact ⟨(hother (hready.2.2 c hc)).trans hready.1, hready.2⟩
  | _ => trivial

/-- Every step keeps the slots exclusive. -/
theorem Exclusive.moves (h : Exclusive s) (hmoves : s.Moves step s') : Exclusive s' := by
  cases hmoves with
  | accept hparent => exact ⟨h.nodup, h.holds, h.ready_at hparent⟩
  | @forks fd hparent =>
    obtain ⟨hslot, hnonneg, hne⟩ := h.ready_at hparent
    refine ⟨?_, fun c hc => ?_, trivial⟩
    · rw [List.map_append, List.nodup_append]
      refine ⟨h.nodup, List.nodup_singleton _, fun slot hmem slot' hmem' => ?_⟩
      obtain ⟨c, hc, rfl⟩ := List.mem_map.mp hmem
      rw [List.mem_singleton.mp hmem']
      exact hne c hc
    · rcases List.mem_append.mp hc with hc | hc
      · exact h.holds c hc
      · rw [List.mem_singleton.mp hc]
        exact ⟨hslot, hnonneg⟩
  | forkFails | exits | readClose | close => exact ⟨h.nodup, h.holds, trivial⟩
  | @store fd hparent =>
    have hne := h.ne_slot (h.ready_at hparent)
    refine ⟨h.nodup, fun c hc => ?_, update_self _ _ _, hne⟩
    obtain ⟨hholds, hnonneg⟩ := h.holds c hc
    exact ⟨(update_of_ne (hne c hc) _ _).trans hholds, hnonneg⟩
  | checks hparent hnonneg =>
    obtain ⟨hslot, hne⟩ := h.ready_at hparent
    exact ⟨h.nodup, h.holds, hslot, hslot ▸ hnonneg, hne⟩
  | skips hparent =>
    refine ⟨h.nodup, h.holds, ?_⟩
    simp only [Server.ParentReady, hparent]
  | finds _ hfree => exact ⟨h.nodup, h.holds, hfree⟩
  | @advances i _ c c' hget hslot haccepted =>
    have hc : c ∈ s.children := List.mem_of_getElem? hget
    have hset : ((s.children.set i c').map Child.slot).Perm (s.children.map Child.slot) := by
      have hbefore := (Custody.perm_cons_eraseIdx hget).map Child.slot
      have hafter := (Custody.set_perm_cons_eraseIdx hget c').map Child.slot
      rw [List.map_cons] at hbefore hafter
      exact hafter.trans (hslot ▸ hbefore.symm)
    refine ⟨hset.nodup_iff.mpr h.nodup, fun d hd => ?_, h.ready.of_slots fun d hd => ?_⟩
    · rcases List.mem_or_eq_of_mem_set hd with hd | rfl
      · exact h.holds d hd
      · rw [hslot, haccepted]
        exact h.holds c hc
    · rcases List.mem_or_eq_of_mem_set hd with hd | rfl
      · exact ⟨d, hd, rfl⟩
      · exact ⟨c, hc, hslot.symm⟩
  | @frees i _ c hget _ =>
    have hc : c ∈ s.children := List.mem_of_getElem? hget
    have hperm := (Custody.perm_cons_eraseIdx hget).map Child.slot
    obtain ⟨hnotMem, hnodup⟩ := List.nodup_cons.mp (hperm.nodup_iff.mp h.nodup)
    refine ⟨hnodup, fun d hd => ?_, ?_⟩
    · have hne : d.slot ≠ c.slot := fun heq => hnotMem (heq ▸ List.mem_map_of_mem hd)
      obtain ⟨hholds, hnonneg⟩ := h.holds d (List.mem_of_mem_eraseIdx hd)
      exact ⟨(update_of_ne hne _ _).trans hholds, hnonneg⟩
    · exact (h.ready.free hc).of_slots fun d hd => ⟨d, List.mem_of_mem_eraseIdx hd, rfl⟩
  | @dies i =>
    have hsub : (s.children.eraseIdx i).Sublist s.children := List.eraseIdx_sublist _ _
    exact ⟨h.nodup.sublist (hsub.map _), fun c hc => h.holds c (hsub.subset hc),
      h.ready.of_slots fun c hc => ⟨c, hsub.subset hc, rfl⟩⟩

/-- The server starts without children. -/
theorem exclusive_initial : Exclusive .initial := ⟨List.nodup_nil, by simp [Server.initial], rfl⟩

/-- **Connection slots are exclusive.** Two live children never work on the same slot, and
what a child finds in its slot is the descriptor that was accepted for it. -/
theorem slots_exclusive (hreach : serveForever.Reachable s) :
    (s.children.map Child.slot).Nodup ∧ ∀ c ∈ s.children, s.clients c.slot = c.accepted := by
  have hinv : Exclusive s := by
    refine hreach.invariant Exclusive ?_ fun s step s' h _ hnext =>
      h.moves (Server.moves_of_next hnext)
    rintro s rfl
    exact exclusive_initial
  exact ⟨hinv.nodup, fun c hc => (hinv.holds c hc).1⟩

/-- Two clients are accepted, and the first child is still at work when the second starts. -/
def Step.twoClients : List Step :=
  [.accept 4, .parent, .parent, .fork true, .parent, .parent, .child 0 true, .parent, .parent,
    .accept 4, .parent, .parent, .fork true, .child 1 true]

/-- The two children work on two slots, with descriptors of the same number. -/
theorem slots_exclusive_twoClients :
    ∃ s, serveForever.Reachable s ∧ s.children = [⟨0, 4, .readFd⟩, ⟨1, 4, .readFd⟩] ∧
      (s.children.map Child.slot).Nodup ∧ ∀ c ∈ s.children, s.clients c.slot = c.accepted := by
  exact Machine.exists_reachable rfl Step.twoClients
    (fun s => s.children = [⟨0, 4, .readFd⟩, ⟨1, 4, .readFd⟩]) ⟨_, rfl, rfl⟩
    fun s hreach hchildren => ⟨hchildren, slots_exclusive hreach⟩

/-- What was accepted in this round of the loop and was not closed yet. -/
def ParentPc.unclosed : ParentPc → List ℤ
  | .store fd => if fd < 0 then [] else [fd]
  | .check fd => if fd < 0 then [] else [fd]
  | .fork fd => [fd]
  | .readClose fd => [fd]
  | .close fd => [fd]
  | _ => []

/-- The condition on a step: a child frees its slot only after the parent has read from the
slot what it closes. -/
def ClosesFirst (s : Server) : Step → Prop
  | .child i _ => ∀ c ∈ s.children[i]?, c.pc = .store → c.slot = s.slot →
      ∀ fd, s.parent ≠ .readClose fd
  | _ => True

/-- The parent has closed what it has accepted, up to what it is about to close, and finds
in the slot what it is about to close. -/
structure Accounted (s : Server) : Prop where
  log : s.closes ++ s.parent.unclosed = s.accepts
  slot : ∀ fd, s.parent = .readClose fd → s.clients s.slot = fd

/-- Every step that meets the condition keeps the account. -/
theorem Accounted.moves (h : Accounted s) (hexclusive : Exclusive s) (hcond : ClosesFirst s step)
    (hmoves : s.Moves step s') : Accounted s' := by
  obtain ⟨hlog, hslot⟩ := h
  cases hmoves with
  | @accept fd hparent =>
    refine ⟨?_, by simp⟩
    simp only [hparent, ParentPc.unclosed, List.append_nil] at hlog ⊢
    split_ifs with hneg
    · rw [List.append_nil, hlog]
    · rw [hlog]
  | forks hparent | forkFails hparent =>
    obtain ⟨hready, -⟩ := hexclusive.ready_at hparent
    rw [hparent] at hlog
    refine ⟨hlog, fun fd' heq => ?_⟩
    cases heq
    exact hready
  | store hparent =>
    rw [hparent] at hlog
    exact ⟨hlog, by simp⟩
  | @exits fd hparent hneg =>
    obtain ⟨hready, -⟩ := hexclusive.ready_at hparent
    have hfd : fd < 0 := hready ▸ hneg
    rw [hparent, ParentPc.unclosed, if_pos hfd] at hlog
    exact ⟨hlog, by simp⟩
  | @checks fd hparent hnonneg =>
    obtain ⟨hready, -⟩ := hexclusive.ready_at hparent
    have hfd : ¬fd < 0 := Int.not_lt.mpr (hready ▸ hnonneg)
    rw [hparent, ParentPc.unclosed, if_neg hfd] at hlog
    exact ⟨hlog, by simp⟩
  | @readClose fd hparent =>
    rw [hparent] at hlog
    refine ⟨?_, by simp⟩
    simpa only [ParentPc.unclosed, hslot fd hparent] using hlog
  | close hparent =>
    rw [hparent] at hlog
    refine ⟨?_, by simp⟩
    simpa only [ParentPc.unclosed, List.append_nil] using hlog
  | skips hparent => exact ⟨hlog, by simp [hparent]⟩
  | finds hparent _ =>
    rw [hparent] at hlog
    exact ⟨hlog, by simp⟩
  | advances | dies => exact ⟨hlog, hslot⟩
  | @frees i _ c hget hpc =>
    refine ⟨hlog, fun fd hparent => ?_⟩
    have hne : c.slot ≠ s.slot := fun heq => hcond c hget hpc heq fd hparent
    exact (update_of_ne hne.symm _ _).trans (hslot fd hparent)

/-- **The parent closes every accepted socket.** As long as no child frees its slot before the
parent has read it, the descriptors the parent has closed are those that `accept` has
returned to it, each once and in the same order, up to the one of the current round. -/
theorem parent_closes_accepted (hreach : serveForever.ReachableUnder ClosesFirst s) :
    s.closes ++ s.parent.unclosed = s.accepts := by
  have hinv : Exclusive s ∧ Accounted s := by
    refine hreach.invariant (fun s => Exclusive s ∧ Accounted s) ?_ ?_
    · rintro s rfl
      exact ⟨exclusive_initial, rfl, by simp [Server.initial]⟩
    · rintro s step s' ⟨hexclusive, h⟩ hcond hnext
      have hmoves := Server.moves_of_next hnext
      exact ⟨hexclusive.moves hmoves, h.moves hexclusive hcond hmoves⟩
  exact hinv.2.log

/-- A check for the condition. -/
def closesFirst (s : Server) : Step → Bool
  | .child i _ => match s.children[i]?, s.parent with
    | some c, .readClose _ => c.pc ≠ .store || c.slot ≠ s.slot
    | _, _ => true
  | _ => true

/-- Steps that pass the check meet the condition. -/
theorem closesFirst_of_check (h : closesFirst s step = true) : ClosesFirst s step := by
  cases step with
  | child i received =>
    intro c hc hpc hslot fd hparent
    simp [closesFirst, Option.mem_def.mp hc, hparent, hpc, hslot] at h
  | _ => trivial

/-- A client is accepted and closed by the parent, and its child ends. -/
theorem parent_closes_accepted_once :
    ∃ s, serveForever.ReachableUnder ClosesFirst s ∧ s.accepts = [4] ∧
      s.closes ++ s.parent.unclosed = s.accepts := by
  refine Machine.exists_reachableUnder rfl closesFirst (fun _ _ => closesFirst_of_check)
    [.accept 4, .parent, .parent, .fork true, .parent, .parent, .child 0 false, .child 0 false,
      .child 0 false, .parent] (fun s => s.accepts = [4]) ⟨_, rfl, rfl⟩ ?_
  exact fun s hreach haccepts => ⟨haccepts, parent_closes_accepted hreach⟩

/-- The child ends before the parent goes on. The parent finds its slot free, calls `close`
with -1, and keeps the accepted descriptor. -/
theorem accepted_descriptor_leaks :
    ∃ s, serveForever.Reachable s ∧ s.parent = .scan ∧ s.accepts = [4] ∧ s.closes = [-1] := by
  exact Machine.exists_reachable rfl
    [.accept 4, .parent, .parent, .fork true, .child 0 false, .child 0 false, .child 0 false,
      .parent, .parent] _ ⟨_, rfl, rfl, rfl, rfl⟩ fun _ _ => id

end Hack.NatServer
