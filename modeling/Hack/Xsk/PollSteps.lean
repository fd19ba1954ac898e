import Hack.Xsk.Frames
import Hack.Xsk.PollThread

/-!
# The steps of a poll thread

For every index of a thread, what was submitted to transmit rings, the packets
waiting in the transmit burst, and the packets of the received burst not copied
yet are together what left the receive ring, in the same order. This file proves
that every step of `thread_func_poll` keeps this, and what a step leaves
untouched for the other threads.
-/

namespace Hack.Xsk

open Function

/-- Whether a port is in the replenishing part of `port_rx_burst`. -/
@[simp] def PortPc.replenishing : PortPc → Bool
  | .rxReserve _ | .fill _ _ => true
  | _ => false

/-- Whether a port is in the completion part of `port_tx_burst`. -/
@[simp] def PortPc.completing : PortPc → Bool
  | .txPeek | .complete _ => true
  | _ => false

/-- The states of a port before and after a step of its call. -/
def PortPc.Moves : PortStep → PortPc → PortPc → Prop
  | .rxBurst, pc, pc' => pc = .idle ∧ (pc' = .idle ∨ ∃ n, pc' = .rxPeek n)
  | .txBurst descs, pc, pc' => pc = .idle ∧ pc' = .txReserve descs
  | .peek m, pc, pc' =>
    (∃ n, pc = .rxPeek n) ∧ pc' = (if m = 0 then .idle else .rxReserve m) ∨
      pc = .txPeek ∧ pc'.completing = true
  | .reserve, pc, pc' =>
    (∃ m, pc = .rxReserve m) ∧ pc'.replenishing = true ∨
      (∃ descs, pc = .txReserve descs) ∧ pc' = .txPeek
  | .transfer, pc, pc' =>
    pc.replenishing = true ∧ pc'.replenishing = true ∨ pc.completing = true ∧ pc'.completing = true
  | .finish, pc, pc' => (pc.replenishing = true ∨ pc.completing = true) ∧ pc' = .idle

/-- The state of the call on a port. -/
def PortSystem.pcAt (sys : PortSystem) (port : ℕ) : Option PortPc :=
  (sys.ports[port]?).map Port.pc

section Ports

variable {maxBurstRx i : ℕ} {sys sys' : PortSystem} {p p' : Port} {step : PortStep} {bp : Bpool}
  {pending : List Desc} {pc pc' : PortPc}

/-- A step of a call moves the state of the port as listed. -/
theorem Port.Transition.moves {bp' : Bpool} {pending' : List Desc}
    (hstep : p.Transition maxBurstRx bp pending step bp' pending' p') :
    PortPc.Moves step p.pc p'.pc := by
  cases hstep with
  | check hpc =>
    refine ⟨hpc, ?_⟩
    dsimp only
    split
    · exact Or.inl rfl
    · exact Or.inr ⟨_, rfl⟩
  | handOver hpc => exact ⟨hpc, rfl⟩
  | receive hpc => exact Or.inl ⟨⟨_, hpc⟩, rfl⟩
  | collect hpc => exact Or.inr ⟨hpc, rfl⟩
  | refill hpc => exact Or.inl ⟨⟨_, hpc⟩, rfl⟩
  | submit hpc => exact Or.inr ⟨⟨_, hpc⟩, rfl⟩
  | cons hpc => exact Or.inl ⟨by rw [hpc]; rfl, rfl⟩
  | prod hpc => exact Or.inr ⟨by rw [hpc]; rfl, rfl⟩
  | filled hpc => exact ⟨Or.inl (by rw [hpc]; rfl), rfl⟩
  | completed hpc => exact ⟨Or.inr (by rw [hpc]; rfl), rfl⟩

/-- The replenishing part of a call goes on until the call returns. -/
theorem PortPc.Moves.replenishing (hmoves : PortPc.Moves step pc pc')
    (hkind : step.replenishes = true) (hpc : pc.replenishing = true) :
    pc' = .idle ∨ pc'.replenishing = true := by
  cases step with
  | reserve =>
    rcases hmoves with ⟨-, h⟩ | ⟨⟨descs, h⟩, -⟩
    · exact Or.inr h
    · simp [h] at hpc
  | transfer =>
    rcases hmoves with ⟨-, h⟩ | ⟨h, -⟩
    · exact Or.inr h
    · cases pc <;> simp at hpc h
  | finish => exact Or.inl hmoves.2
  | _ => cases hkind

/-- The completion part of a call goes on until the call returns. -/
theorem PortPc.Moves.completing (hmoves : PortPc.Moves step pc pc') (hkind : step.completes = true)
    (hpc : pc.completing = true) : pc' = .idle ∨ pc'.completing = true := by
  cases step with
  | peek m =>
    rcases hmoves with ⟨⟨n, h⟩, -⟩ | ⟨-, h⟩
    · simp [h] at hpc
    · exact Or.inr h
  | transfer =>
    rcases hmoves with ⟨h, -⟩ | ⟨-, h⟩
    · cases pc <;> simp at hpc h
    · exact Or.inr h
  | finish => exact Or.inl hmoves.2
  | _ => cases hkind

/-- After a replacement only the replaced port may be in another state. -/
theorem PortSystem.pcAt_replace_of_ne {x : ℕ} (hne : x ≠ i) :
    (sys.replace i bp pending p').pcAt x = sys.pcAt x := by
  simp only [pcAt, replace, List.getElem?_set_ne hne.symm]

/-- The replaced port is in its new state. -/
theorem PortSystem.pcAt_replace_self (hget : sys.ports[i]? = some p) :
    (sys.replace i bp pending p').pcAt i = some p'.pc := by
  obtain ⟨hi, -⟩ := List.getElem?_eq_some_iff.mp hget
  simp only [pcAt, replace, List.getElem?_set_self hi, Option.map_some]

/-- A step of a call moves one port and leaves the states of the others alone. -/
theorem PortSystem.next_port (hnext : sys.next maxBurstRx (.port i step) = some sys') :
    ∃ p pc', sys.ports[i]? = some p ∧ sys'.pcAt i = some pc' ∧ PortPc.Moves step p.pc pc' ∧
      ∀ x ≠ i, sys'.pcAt x = sys.pcAt x := by
  simp only [next, Option.bind_eq_bind, Option.bind_eq_some_iff, Option.pure_def,
    Option.some.injEq, Prod.exists] at hnext
  obtain ⟨p, hget, bp, pending, p', hstep, rfl⟩ := hnext
  exact ⟨p, p'.pc, hget, pcAt_replace_self hget, (Port.transition_of_step hstep).moves,
    fun x hx => pcAt_replace_of_ne hx⟩

/-- A call has returned exactly when the port is idle. -/
theorem PortSystem.returned_iff : sys.returned i = true ↔ sys.pcAt i = some .idle := by
  simp only [returned, pcAt]
  cases sys.ports[i]? <;> simp

end Ports

namespace PollPc

/-- The port index being processed. -/
@[simp] def index : PollPc → Option ℕ
  | .receive _ j | .replenish _ j | .packet _ j _ | .flush _ j _ | .transmit _ j _
  | .complete _ j _ => some j
  | _ => none

/-- Whether the full transmit burst of an index is being submitted. -/
@[simp] def flushing (j : ℕ) : PollPc → Bool
  | .flush _ l _ | .transmit _ l _ | .complete _ l _ => l = j
  | _ => false

/-- Whether the full transmit burst of an index is submitted but not yet cleared. -/
@[simp] def completing (j : ℕ) : PollPc → Bool
  | .complete _ l _ => l = j
  | _ => false

/-- The packets of a received burst that an index has yet to copy. -/
@[simp] def rest (burst : List Desc) (j : ℕ) : PollPc → List Desc
  | .replenish _ l => if l = j then burst else []
  | .packet _ l k => if l = j then burst.drop k else []
  | .flush _ l k | .transmit _ l k | .complete _ l k => if l = j then burst.drop (k + 1) else []
  | _ => []

end PollPc

namespace PollThread

/-- The packets of the received burst not yet copied into the transmit burst. -/
def uncopied (t : PollThread) (j : ℕ) : List Desc := t.pc.rest t.burstRx j

/-- The packets of the transmit burst not yet submitted. -/
def unsent (t : PollThread) (j : ℕ) : List Desc :=
  if t.pc.completing j then [] else t.burstTx j

/-- The port on which the thread has a call in progress. -/
def activePort (t : PollThread) : Option ℕ :=
  match t.pc with
  | .receive _ j | .replenish _ j => some (t.portsRx j)
  | .transmit _ j _ | .complete _ j _ => some (t.portsTx j)
  | _ => none

/-- The states of the active port that agree with the thread's position. -/
def Expects (t : PollThread) (pc : PortPc) : Prop :=
  match t.pc with
  | .receive _ _ => ∃ n, pc = .rxPeek n
  | .replenish _ _ => pc.replenishing = true
  | .transmit _ j _ => pc = .txReserve (t.burstTx j)
  | .complete _ _ _ => pc.completing = true
  | _ => False

/-- What a thread can rely on between its steps. -/
structure Inv (cfg : PollConfig) (sys : PortSystem) (consumed : ℕ → List Desc)
    (t : PollThread) : Prop where
  /-- The processed index is one of the thread's ports. -/
  index_lt : ∀ j, t.pc.index = some j → j < t.nPortsRx
  /-- The active port is where the thread left it. -/
  holds : ∀ x, t.activePort = some x → ∃ pc, sys.pcAt x = some pc ∧ t.Expects pc
  /-- Submitted, unsent, and uncopied packets are the consumed ones, in order. -/
  tracks : ∀ j < t.nPortsRx, t.submitted j ++ t.unsent j ++ t.uncopied j = consumed (t.portsRx j)
  /-- A transmit burst is full only while it is being submitted. -/
  bounded : ∀ j < t.nPortsRx, (t.burstTx j).length < cfg.maxBurstTx ∨
    t.pc.flushing j = true ∧ (t.burstTx j).length = cfg.maxBurstTx

/-- What a step of a thread leaves to the other threads: ports with a call that
is not the thread's own, and the logs of foreign receive rings. -/
structure Frame (sys : PortSystem) (consumed : ℕ → List Desc) (t : PollThread)
    (sys' : PortSystem) (consumed' : ℕ → List Desc) (t' : PollThread) : Prop where
  /-- The number of ports is fixed. -/
  nPortsRx_eq : t'.nPortsRx = t.nPortsRx
  /-- The receiving ports are fixed. -/
  portsRx_eq : t'.portsRx = t.portsRx
  /-- A foreign call is not moved. -/
  pcAt_eq : ∀ x pc, sys.pcAt x = some pc → pc ≠ .idle → t.activePort ≠ some x →
    sys'.pcAt x = some pc
  /-- The log of a foreign ring is not extended. -/
  consumed_eq : ∀ x, (∀ j < t.nPortsRx, t.portsRx j ≠ x) → consumed' x = consumed x
  /-- A call is started only on an idle port. -/
  active : ∀ x, t'.activePort = some x → t.activePort = some x ∨ sys.pcAt x = some .idle

/-- The result of a step: the thread's own invariant, and the frame of the others. -/
structure StepSpec (cfg : PollConfig) (sys : PortSystem) (consumed : ℕ → List Desc)
    (t : PollThread) (sys' : PortSystem) (consumed' : ℕ → List Desc) (t' : PollThread) :
    Prop where
  /-- The invariant of the thread after the step. -/
  inv : t'.Inv cfg sys' consumed'
  /-- The frame of the step. -/
  frame : t.Frame sys consumed sys' consumed' t'

variable {cfg : PollConfig} {sys sys' : PortSystem} {consumed consumed' : ℕ → List Desc}
  {t t' : PollThread} {x i j k : ℕ} {step : PortStep} {revents : ℕ → Revents} {pc : PollPc}
  {p : Port} {desc : Desc}

/-- At a quiet position nothing is active, uncopied, or being submitted. -/
theorem quiet_spec (hquiet : t.pc.quiet = true) : t.pc.index = none ∧ t.activePort = none ∧
    ∀ j, t.uncopied j = [] ∧ t.unsent j = t.burstTx j ∧ t.pc.flushing j = false := by
  simp only [uncopied, unsent, activePort]
  cases hpc : t.pc <;> simp_all [PollPc.quiet]

/-- A call in progress is never expected on an idle port. -/
theorem not_expects_idle : ¬t.Expects .idle := by
  rw [Expects]
  cases t.pc <;> simp

/-- A step without a port call leaves every port and every log alone. -/
theorem Frame.of_local (hn : t'.nPortsRx = t.nPortsRx) (hrx : t'.portsRx = t.portsRx)
    (hactive : t'.activePort = none) : t.Frame sys consumed sys consumed t' :=
  ⟨hn, hrx, fun _ _ h _ _ => h, fun _ _ => rfl, fun x h => by simp [hactive] at h⟩

/-- A step of a call leaves alone every port except the one it moves. -/
theorem Frame.of_port (hnext : sys.next cfg.maxBurstRx (.port x step) = some sys')
    (hmine : t.activePort = some x ∨ sys.pcAt x = some .idle) (hn : t'.nPortsRx = t.nPortsRx)
    (hrx : t'.portsRx = t.portsRx)
    (hconsumed : ∀ y, (∀ j < t.nPortsRx, t.portsRx j ≠ y) → consumed' y = consumed y)
    (hactive : t'.activePort = none ∨ t'.activePort = some x) :
    t.Frame sys consumed sys' consumed' t' := by
  obtain ⟨-, -, -, -, -, hsame⟩ := PortSystem.next_port hnext
  refine ⟨hn, hrx, ?_, hconsumed, ?_⟩
  · intro y pc hpc hidle hother
    have hne : y ≠ x := by
      rintro rfl
      rcases hmine with hmine | hmine
      · exact hother hmine
      · rw [hmine] at hpc
        exact hidle (Option.some.inj hpc).symm
    rw [hsame y hne, hpc]
  · intro y hy
    rcases hactive with hactive | hactive
    · simp [hactive] at hy
    · rw [hactive] at hy
      cases hy
      exact hmine

/-- The packet at the loop's position is the first of those left in the burst. -/
theorem drop_eq_cons {burst : List Desc} (hdesc : burst[k]? = some desc) :
    burst.drop k = desc :: burst.drop (k + 1) := by
  obtain ⟨hk, rfl⟩ := List.getElem?_eq_some_iff.mp hdesc
  exact List.drop_eq_getElem_cons hk

section Steps

variable (hinv : t.Inv cfg sys consumed)
include hinv

/-- A change of position that keeps what is unsent, uncopied, and being submitted. -/
theorem Inv.move (hindex : ∀ j, pc.index = some j → j < t.nPortsRx)
    (hholds : ∀ x, (t.goto pc).activePort = some x →
      ∃ pc', sys'.pcAt x = some pc' ∧ (t.goto pc).Expects pc')
    (hsame : ∀ j, (t.goto pc).unsent j = t.unsent j ∧ (t.goto pc).uncopied j = t.uncopied j ∧
      pc.flushing j = t.pc.flushing j) :
    ({ t with revents := revents, pc := pc } : PollThread).Inv cfg sys' consumed where
  index_lt := hindex
  holds := hholds
  tracks := by
    intro j hj
    obtain ⟨hunsent, huncopied, -⟩ := hsame j
    have htracks := hinv.tracks j hj
    rw [← hunsent, ← huncopied] at htracks
    exact htracks
  bounded := by
    intro j hj
    have hbounded := hinv.bounded j hj
    rw [← (hsame j).2.2] at hbounded
    exact hbounded

/-- A move to a quiet position when nothing is left to copy or to submit. -/
theorem Inv.of_quiet (hpc : pc.quiet = true)
    (hold : ∀ j, t.uncopied j = [] ∧ t.unsent j = t.burstTx j ∧ t.pc.flushing j = false) :
    ({ t with revents := revents, pc := pc } : PollThread).Inv cfg sys' consumed := by
  obtain ⟨hindex, hactive, hnew⟩ := quiet_spec (t := t.goto pc) hpc
  refine hinv.move (fun j hj => ?_) (fun x hx => by simp [hactive] at hx) fun j => ?_
  · have hnone : pc.index = none := hindex
    cases hnone.symm.trans hj
  · obtain ⟨huncopied, hunsent, hflushing⟩ := hnew j
    rw [huncopied, hunsent, (hold j).1, (hold j).2.1, (hold j).2.2]
    exact ⟨rfl, rfl, hflushing⟩

/-- The steps between the loops: `poll`, the loop heads, and the skips. -/
theorem StepSpec.of_control (hold : t.pc.quiet = true) (hpc : pc.quiet = true) :
    t.StepSpec cfg sys consumed sys consumed { t with revents := revents, pc := pc } where
  inv := hinv.of_quiet hpc (quiet_spec hold).2.2
  frame := .of_local rfl rfl (quiet_spec (t := { t with revents := revents, pc := pc }) hpc).2.1

/-- `port_rx_burst` is called on an idle port and may return at once. -/
theorem StepSpec.of_begin (hpc : t.pc = .inner i j) (hj : j < t.nPortsRx)
    (hnext : sys.next cfg.maxBurstRx (.port (t.portsRx j) .rxBurst) = some sys') :
    t.StepSpec cfg sys consumed sys' consumed
      (t.goto (if sys'.returned (t.portsRx j) then .inner i (j + 1) else .receive i j)) := by
  obtain ⟨p, pc', hget, hpc', ⟨hidle, hmove⟩, -⟩ := PortSystem.next_port hnext
  have hpcAt : sys.pcAt (t.portsRx j) = some .idle := by
    rw [PortSystem.pcAt, hget, Option.map_some, hidle]
  obtain ⟨-, -, hold⟩ := quiet_spec (t := t) (by rw [hpc]; rfl)
  by_cases hreturned : sys'.returned (t.portsRx j) = true
  · rw [if_pos hreturned]
    exact ⟨hinv.of_quiet rfl hold,
      .of_port hnext (Or.inr hpcAt) rfl rfl (fun _ _ => rfl) (Or.inl rfl)⟩
  · rw [if_neg hreturned]
    have hpeek : ∃ n, pc' = .rxPeek n := by
      refine hmove.resolve_left fun h => hreturned ?_
      rw [PortSystem.returned_iff, hpc', h]
    refine ⟨hinv.move ?_ ?_ fun l => ?_,
      .of_port hnext (Or.inr hpcAt) rfl rfl (fun _ _ => rfl) (Or.inr rfl)⟩
    · rintro _ ⟨rfl⟩
      exact hj
    · rintro _ ⟨rfl⟩
      exact ⟨pc', hpc', hpeek⟩
    · rw [(hold l).1, (hold l).2.1, (hold l).2.2]
      exact ⟨rfl, rfl, rfl⟩

/-- A step of the thread's own call starts where the thread expects the port. -/
theorem Inv.next_port (hactive : t.activePort = some x)
    (hnext : sys.next cfg.maxBurstRx (.port x step) = some sys') :
    ∃ p pc', sys.ports[x]? = some p ∧ t.Expects p.pc ∧ sys'.pcAt x = some pc' ∧
      PortPc.Moves step p.pc pc' := by
  obtain ⟨pc, hpcAt, hexpects⟩ := hinv.holds x hactive
  obtain ⟨p, pc', hget, hpc', hmoves, -⟩ := PortSystem.next_port hnext
  rw [PortSystem.pcAt, hget, Option.map_some, Option.some.injEq] at hpcAt
  exact ⟨p, pc', hget, hpcAt ▸ hexpects, hpc', hmoves⟩

/-- The receive ring is peeked: the burst leaves the ring and waits to be copied. -/
theorem StepSpec.of_receive
    (hdistinct : ∀ j < t.nPortsRx, ∀ l < t.nPortsRx, t.portsRx j = t.portsRx l → j = l) {m : ℕ}
    (hpc : t.pc = .receive i j)
    (hnext : sys.next cfg.maxBurstRx (.port (t.portsRx j) (.peek m)) = some sys') :
    t.StepSpec cfg sys consumed sys'
      (update consumed (t.portsRx j) (consumed (t.portsRx j) ++ p.rxq.take m))
      { t with
        burstRx := p.rxq.take m
        pc := if m = 0 then .inner i (j + 1) else .replenish i j } := by
  have hj := hinv.index_lt j (by rw [hpc]; rfl)
  have hactive : t.activePort = some (t.portsRx j) := by rw [activePort, hpc]
  obtain ⟨q, pc', -, hexpects, hpc', hmoves⟩ := hinv.next_port hactive hnext
  have hmoved : pc' = if m = 0 then .idle else .rxReserve m := by
    rw [Expects, hpc] at hexpects
    obtain ⟨n, hn⟩ := hexpects
    rcases hmoves with ⟨-, h⟩ | ⟨h, -⟩
    · exact h
    · cases hn.symm.trans h
  have hconsumed : ∀ y, (∀ l < t.nPortsRx, t.portsRx l ≠ y) →
      update consumed (t.portsRx j) (consumed (t.portsRx j) ++ p.rxq.take m) y =
        consumed y := fun y hy => update_of_ne (hy j hj).symm _ _
  have hold : ∀ l, t.unsent l = t.burstTx l ∧ t.uncopied l = [] ∧ t.pc.flushing l = false := by
    intro l
    simp [unsent, uncopied, hpc]
  refine ⟨⟨?_, ?_, ?_, ?_⟩, .of_port hnext (Or.inl hactive) rfl rfl hconsumed ?_⟩
  · intro l hl
    by_cases hm : m = 0
    · simp [hm] at hl
    · simp only [hm, if_false, PollPc.index, Option.some.injEq] at hl
      exact hl ▸ hj
  · intro x hx
    by_cases hm : m = 0
    · simp [hm, activePort] at hx
    · simp only [hm, if_false, activePort, Option.some.injEq] at hx
      rw [if_neg hm] at hmoved
      refine ⟨pc', hx ▸ hpc', ?_⟩
      simp [Expects, hm, hmoved]
  · intro l hl
    have htracks := hinv.tracks l hl
    rw [(hold l).1, (hold l).2.1, List.append_nil] at htracks
    by_cases hlj : l = j
    · subst hlj
      by_cases hm : m = 0 <;>
        simp [unsent, uncopied, hm, htracks]
    · have hne : t.portsRx l ≠ t.portsRx j := fun h => hlj (hdistinct l hl j hj h)
      by_cases hm : m = 0 <;>
        simp [unsent, uncopied, hm, htracks, update_of_ne hne, Ne.symm hlj]
  · intro l hl
    have hbounded := hinv.bounded l hl
    rw [(hold l).2.2] at hbounded
    exact Or.inl (by simpa using hbounded)
  · by_cases hm : m = 0 <;> simp [hm, activePort]

/-- The replenishing part of `port_rx_burst` runs until the call returns, and the
packet loop starts at the first packet. -/
theorem StepSpec.of_replenish (hpc : t.pc = .replenish i j) (hstep : step.replenishes = true)
    (hnext : sys.next cfg.maxBurstRx (.port (t.portsRx j) step) = some sys') :
    t.StepSpec cfg sys consumed sys' consumed
      (t.goto (if sys'.returned (t.portsRx j) then .packet i j 0 else .replenish i j)) := by
  have hj := hinv.index_lt j (by rw [hpc]; rfl)
  have hactive : t.activePort = some (t.portsRx j) := by rw [activePort, hpc]
  obtain ⟨p, pc', -, hexpects, hpc', hmoves⟩ := hinv.next_port hactive hnext
  rw [Expects, hpc] at hexpects
  by_cases hreturned : sys'.returned (t.portsRx j) = true
  · rw [if_pos hreturned]
    refine ⟨hinv.move ?_ (fun x hx => by simp [activePort, goto] at hx) fun l => ?_,
      .of_port hnext (Or.inl hactive) rfl rfl (fun _ _ => rfl) (Or.inl rfl)⟩
    · rintro _ ⟨rfl⟩
      exact hj
    · simp [unsent, uncopied, goto, hpc]
  · rw [if_neg hreturned]
    have hreplenishing : pc'.replenishing = true := by
      refine (hmoves.replenishing hstep hexpects).resolve_left fun h => hreturned ?_
      rw [PortSystem.returned_iff, hpc', h]
    refine ⟨hinv.move ?_ ?_ fun l => ?_,
      .of_port hnext (Or.inl hactive) rfl rfl (fun _ _ => rfl) (Or.inr rfl)⟩
    · rintro _ ⟨rfl⟩
      exact hj
    · rintro _ ⟨rfl⟩
      exact ⟨pc', hpc', hreplenishing⟩
    · rw [unsent, unsent, uncopied, uncopied, hpc]
      exact ⟨rfl, rfl, rfl⟩

/-- One packet is copied. The transmit burst becomes full only to be submitted. -/
theorem StepSpec.of_copy (hpc : t.pc = .packet i j k) (hdesc : t.burstRx[k]? = some desc) :
    t.StepSpec cfg sys consumed sys consumed
      { t with
        burstTx := update t.burstTx j (t.burstTx j ++ [desc])
        pc := if (t.burstTx j ++ [desc]).length = cfg.maxBurstTx then .flush i j k
          else .packet i j (k + 1) } := by
  have hj := hinv.index_lt j (by rw [hpc]; rfl)
  have hdrop := drop_eq_cons hdesc
  have hlt : ∀ l < t.nPortsRx, (t.burstTx l).length < cfg.maxBurstTx := by
    intro l hl
    simpa [hpc] using hinv.bounded l hl
  -- the copied packet moves from the uncopied to the unsent ones, wherever the thread goes
  have htracks : ∀ pc : PollPc, (∀ l, pc.completing l = false) →
      (∀ l, pc.rest t.burstRx l = if j = l then t.burstRx.drop (k + 1) else []) →
      ∀ l < t.nPortsRx, t.submitted l ++
        (if pc.completing l then [] else update t.burstTx j (t.burstTx j ++ [desc]) l) ++
          pc.rest t.burstRx l = consumed (t.portsRx l) := by
    intro pc hcompleting hrest l hl
    have htracks := hinv.tracks l hl
    rw [hcompleting, hrest]
    by_cases hlj : l = j
    · subst hlj
      simpa [unsent, uncopied, hpc, hdrop] using htracks
    · simpa [unsent, uncopied, hpc, hlj, Ne.symm hlj]
        using htracks
  by_cases hfull : (t.burstTx j ++ [desc]).length = cfg.maxBurstTx
  · rw [if_pos hfull]
    refine ⟨⟨?_, fun x hx => by simp [activePort] at hx,
      htracks _ (fun _ => rfl) (fun _ => rfl), ?_⟩, .of_local rfl rfl rfl⟩
    · rintro _ ⟨rfl⟩
      exact hj
    · intro l hl
      by_cases hlj : l = j
      · subst hlj
        exact Or.inr ⟨by simp, by simpa using hfull⟩
      · exact Or.inl (by simpa [hlj] using hlt l hl)
  · rw [if_neg hfull]
    refine ⟨⟨?_, fun x hx => by simp [activePort] at hx,
      htracks _ (fun _ => rfl) (fun _ => rfl), ?_⟩, .of_local rfl rfl rfl⟩
    · rintro _ ⟨rfl⟩
      exact hj
    · intro l hl
      have := hlt l hl
      by_cases hlj : l = j
      · subst hlj
        simp only [List.length_append, List.length_singleton] at hfull
        refine Or.inl ?_
        simp only [update_self, List.length_append, List.length_singleton]
        omega
      · exact Or.inl (by simpa [hlj] using this)

/-- The loop over the packets ends behind the last packet of the burst. -/
theorem StepSpec.of_last (hpc : t.pc = .packet i j k) (hnone : t.burstRx[k]? = none) :
    t.StepSpec cfg sys consumed sys consumed (t.goto (.inner i (j + 1))) := by
  refine ⟨hinv.of_quiet rfl fun l => ?_, .of_local rfl rfl rfl⟩
  have hdrop : t.burstRx.drop k = [] := List.drop_eq_nil_of_le (List.getElem?_eq_none_iff.mp hnone)
  simp [unsent, uncopied, hpc, hdrop]

/-- `port_tx_burst` is called on an idle port with the full burst. -/
theorem StepSpec.of_flush (hpc : t.pc = .flush i j k)
    (hnext : sys.next cfg.maxBurstRx (.port (t.portsTx j) (.txBurst (t.burstTx j))) = some sys') :
    t.StepSpec cfg sys consumed sys' consumed (t.goto (.transmit i j k)) := by
  have hj := hinv.index_lt j (by rw [hpc]; rfl)
  obtain ⟨p, pc', hget, hpc', ⟨hidle, hmoved⟩, -⟩ := PortSystem.next_port hnext
  have hpcAt : sys.pcAt (t.portsTx j) = some .idle := by
    rw [PortSystem.pcAt, hget, Option.map_some, hidle]
  refine ⟨hinv.move ?_ ?_ fun l => ?_,
    .of_port hnext (Or.inr hpcAt) rfl rfl (fun _ _ => rfl) (Or.inr rfl)⟩
  · rintro _ ⟨rfl⟩
    exact hj
  · rintro _ ⟨rfl⟩
    exact ⟨pc', hpc', hmoved⟩
  · simp [unsent, uncopied, goto, hpc]

/-- The burst enters the transmit ring: exactly the unsent packets are logged. -/
theorem StepSpec.of_transmit (hpc : t.pc = .transmit i j k)
    (hget : sys.ports[t.portsTx j]? = some p)
    (hnext : sys.next cfg.maxBurstRx (.port (t.portsTx j) .reserve) = some sys') :
    t.StepSpec cfg sys consumed sys' consumed
      { t with
        submitted := update t.submitted j (t.submitted j ++ p.pc.burst)
        pc := .complete i j k } := by
  have hj := hinv.index_lt j (by rw [hpc]; rfl)
  have hactive : t.activePort = some (t.portsTx j) := by rw [activePort, hpc]
  obtain ⟨q, pc', hget', hexpects, hpc', hmoves⟩ := hinv.next_port hactive hnext
  obtain rfl : p = q := Option.some.inj (hget.symm.trans hget')
  have hburst : p.pc = .txReserve (t.burstTx j) := by
    rw [Expects, hpc] at hexpects
    exact hexpects
  have hmoved : pc' = .txPeek := by
    rcases hmoves with ⟨⟨m, h⟩, -⟩ | ⟨-, h⟩
    · cases hburst.symm.trans h
    · exact h
  refine ⟨⟨?_, ?_, ?_, ?_⟩, .of_port hnext (Or.inl hactive) rfl rfl (fun _ _ => rfl) (Or.inr rfl)⟩
  · rintro _ ⟨rfl⟩
    exact hj
  · rintro _ ⟨rfl⟩
    refine ⟨pc', hpc', ?_⟩
    rw [hmoved]
    rfl
  · intro l hl
    have htracks := hinv.tracks l hl
    by_cases hlj : l = j
    · subst hlj
      simpa [unsent, uncopied, hpc, hburst, PortPc.burst]
        using htracks
    · simpa [unsent, uncopied, hpc, hlj, Ne.symm hlj]
        using htracks
  · intro l hl
    simpa [hpc] using hinv.bounded l hl

/-- The completion part of `port_tx_burst` runs until the call returns and the
burst is cleared. -/
theorem StepSpec.of_complete (htx : 0 < cfg.maxBurstTx) (hpc : t.pc = .complete i j k)
    (hstep : step.completes = true)
    (hnext : sys.next cfg.maxBurstRx (.port (t.portsTx j) step) = some sys') :
    t.StepSpec cfg sys consumed sys' consumed
      (if sys'.returned (t.portsTx j) then
        { t with burstTx := update t.burstTx j [], pc := .packet i j (k + 1) }
      else t) := by
  have hj := hinv.index_lt j (by rw [hpc]; rfl)
  have hactive : t.activePort = some (t.portsTx j) := by rw [activePort, hpc]
  obtain ⟨p, pc', -, hexpects, hpc', hmoves⟩ := hinv.next_port hactive hnext
  rw [Expects, hpc] at hexpects
  by_cases hreturned : sys'.returned (t.portsTx j) = true
  · rw [if_pos hreturned]
    refine ⟨⟨?_, fun x hx => by simp [activePort] at hx, ?_, ?_⟩,
      .of_port hnext (Or.inl hactive) rfl rfl (fun _ _ => rfl) (Or.inl rfl)⟩
    · rintro _ ⟨rfl⟩
      exact hj
    · intro l hl
      have htracks := hinv.tracks l hl
      by_cases hlj : l = j
      · subst hlj
        simpa [unsent, uncopied, hpc] using htracks
      · simpa [unsent, uncopied, hpc, hlj, Ne.symm hlj]
          using htracks
    · intro l hl
      by_cases hlj : l = j
      · subst hlj
        exact Or.inl (by simpa using htx)
      · have hbounded := hinv.bounded l hl
        simp only [hpc, PollPc.flushing, Ne.symm hlj, decide_false] at hbounded
        exact Or.inl (by simpa [hlj] using hbounded)
  · rw [if_neg hreturned]
    have hcompleting : pc'.completing = true := by
      refine (hmoves.completing hstep hexpects).resolve_left fun h => hreturned ?_
      rw [PortSystem.returned_iff, hpc', h]
    refine ⟨⟨hinv.index_lt, ?_, hinv.tracks, hinv.bounded⟩,
      .of_port hnext (Or.inl hactive) rfl rfl (fun _ _ => rfl) (Or.inr hactive)⟩
    intro x hx
    cases hactive.symm.trans hx
    refine ⟨pc', hpc', ?_⟩
    rw [Expects, hpc]
    exact hcompleting

end Steps

/-- Every step of a thread keeps its invariant and the frame of the other threads. -/
theorem Transition.spec (hstep : t.Transition cfg sys consumed sys' consumed' t')
    (hinv : t.Inv cfg sys consumed) (htx : 0 < cfg.maxBurstTx)
    (hdistinct : ∀ j < t.nPortsRx, ∀ l < t.nPortsRx, t.portsRx j = t.portsRx l → j = l) :
    t.StepSpec cfg sys consumed sys' consumed' t' := by
  cases hstep with
  | control hold hnew => exact .of_control hinv hold hnew
  | begin hpc hj hnext => exact .of_begin hinv hpc hj hnext
  | receive hpc _ hnext => exact .of_receive hinv hdistinct hpc hnext
  | replenish hpc hkind hnext => exact .of_replenish hinv hpc hkind hnext
  | last hpc hnone => exact .of_last hinv hpc hnone
  | copy hpc hdesc => exact .of_copy hinv hpc hdesc
  | flush hpc hnext => exact .of_flush hinv hpc hnext
  | transmit hpc hget hnext => exact .of_transmit hinv hpc hget hnext
  | complete hpc hkind hnext => exact .of_complete hinv htx hpc hkind hnext

end PollThread

end Hack.Xsk
