import Hack.Xsk.Ports

/-!
# The polling forwarder threads

This file embeds `thread_func_poll` of `ebpf-xdp/xsk/af_rxtx.c` on top of the
port system. A thread waits in `poll`, goes through its descriptors and, for
each readable one, through its ports; it receives a burst from the matching
port and copies it packet by packet into the transmit burst of the same index.
A full transmit burst is submitted and cleared. The calls of `port_rx_burst` and
`port_tx_burst` proceed step by step, so that several threads and the kernel
interleave everywhere. Two logs record what left the receive rings and what each
index of a thread put into transmit rings.
-/

namespace Hack.Xsk

open Function

/-- The constants of the forwarder. -/
structure PollConfig where
  /-- `MAX_BURST_RX`. -/
  maxBurstRx : ℕ
  /-- `MAX_BURST_TX`. -/
  maxBurstTx : ℕ
  /-- `xsk_socket__fd` of the socket of a port. -/
  fd : ℕ → ℕ

/-- The bits of `revents` that the thread tests. -/
structure Revents where
  /-- `POLLIN`. -/
  pollin : Bool
  /-- `POLLERR`. -/
  pollerr : Bool
  /-- `POLLHUP`. -/
  pollhup : Bool

/-- Where a thread stands; `i` runs over descriptors, `j` over ports, and `k`
over the packets of the received burst. -/
inductive PollPc
  /-- At the head of the loop around `poll`. -/
  | loop
  /-- At the head of the loop over the descriptors. -/
  | outer (i : ℕ)
  /-- At the head of the loop over the ports. -/
  | inner (i j : ℕ)
  /-- In `port_rx_burst`, before the receive ring is peeked. -/
  | receive (i j : ℕ)
  /-- In `port_rx_burst`, after the burst has been read. -/
  | replenish (i j : ℕ)
  /-- At the head of the loop over the packets. -/
  | packet (i j k : ℕ)
  /-- Before the call of `port_tx_burst` with a full burst. -/
  | flush (i j k : ℕ)
  /-- In `port_tx_burst`, before the burst is submitted. -/
  | transmit (i j k : ℕ)
  /-- In `port_tx_burst`, after the burst has been submitted. -/
  | complete (i j k : ℕ)
  /-- The thread has left its loop. -/
  | done
  deriving DecidableEq

/-- `struct thread_data` and the local variables of `thread_func_poll`. -/
structure PollThread where
  /-- The number of ports of the thread. -/
  nPortsRx : ℕ
  /-- The ports packets are received from. -/
  portsRx : ℕ → ℕ
  /-- The ports packets are transmitted to. -/
  portsTx : ℕ → ℕ
  /-- The answers of the last `poll`. -/
  revents : ℕ → Revents
  /-- The entries of `burst_rx` written by the last receive call. -/
  burstRx : List Desc
  /-- The first `n_pkts` entries of each `burst_tx`. -/
  burstTx : ℕ → List Desc
  /-- The position in the program. -/
  pc : PollPc
  /-- The packets that each index has put into transmit rings so far. -/
  submitted : ℕ → List Desc

/-- What a thread does next. -/
inductive PollChoice
  /-- The loop ends because `quit` is set. -/
  | quit
  /-- `poll` returns. -/
  | poll (revents : ℕ → Revents)
  /-- The next statement of the thread. -/
  | run
  /-- The next step of the port call in progress. -/
  | call (step : PortStep)

namespace PollThread

/-- A thread that has not started: `thread_data` is zero-initialised. -/
def initial (nPortsRx : ℕ) (portsRx portsTx : ℕ → ℕ) : PollThread :=
  ⟨nPortsRx, portsRx, portsTx, fun _ => ⟨false, false, false⟩, [], fun _ => [], .loop, fun _ => []⟩

/-- The thread at another position. -/
def goto (t : PollThread) (pc : PollPc) : PollThread := { t with pc := pc }

end PollThread

/-- Whether a step of a port call belongs to the replenishing part of
`port_rx_burst`. -/
def PortStep.replenishes : PortStep → Bool
  | .reserve | .transfer | .finish => true
  | _ => false

/-- Whether a step of a port call belongs to the completion part of
`port_tx_burst`. -/
def PortStep.completes : PortStep → Bool
  | .peek _ | .transfer | .finish => true
  | _ => false

/-- The burst that a port call is about to submit. -/
def PortPc.burst : PortPc → List Desc
  | .txReserve descs => descs
  | _ => []

/-- Whether the last call on a port has returned. -/
def PortSystem.returned (sys : PortSystem) (port : ℕ) : Bool :=
  match sys.ports[port]? with
  | some p => p.pc = .idle
  | none => false

/-- The port system, the log of the receive rings, and the thread after a step
of `thread_func_poll`. -/
def PollThread.step (cfg : PollConfig) (sys : PortSystem) (consumed : ℕ → List Desc)
    (t : PollThread) (choice : PollChoice) :
    Option (PortSystem × (ℕ → List Desc) × PollThread) :=
  match t.pc, choice with
  | .loop, .quit => some (sys, consumed, t.goto .done)
  | .loop, .poll revents => some (sys, consumed, { t with revents := revents, pc := .outer 0 })
  | .outer i, .run =>
    if i < t.nPortsRx then
      -- an error or hang-up skips the descriptor
      if (t.revents i).pollerr || (t.revents i).pollhup then
        some (sys, consumed, t.goto (.outer (i + 1)))
      else some (sys, consumed, t.goto (.inner i 0))
    else some (sys, consumed, t.goto .loop)
  | .inner i j, .run =>
    if j < t.nPortsRx then
      if cfg.fd (t.portsRx i) = cfg.fd (t.portsRx j) ∧ (t.revents i).pollin = true then do
        let sys ← sys.next cfg.maxBurstRx (.port (t.portsRx j) .rxBurst)
        return (sys, consumed,
          t.goto (if sys.returned (t.portsRx j) then .inner i (j + 1) else .receive i j))
      else some (sys, consumed, t.goto (.inner i (j + 1)))
    else some (sys, consumed, t.goto (.outer (i + 1)))
  | .receive i j, .call (.peek m) => do
    let p ← sys.ports[t.portsRx j]?
    let sys ← sys.next cfg.maxBurstRx (.port (t.portsRx j) (.peek m))
    let burst := p.rxq.take m
    return (sys, update consumed (t.portsRx j) (consumed (t.portsRx j) ++ burst),
      { t with burstRx := burst, pc := if m = 0 then .inner i (j + 1) else .replenish i j })
  | .replenish i j, .call step =>
    if step.replenishes then do
      let sys ← sys.next cfg.maxBurstRx (.port (t.portsRx j) step)
      return (sys, consumed,
        t.goto (if sys.returned (t.portsRx j) then .packet i j 0 else .replenish i j))
    else none
  | .packet i j k, .run =>
    match t.burstRx[k]? with
    | none => some (sys, consumed, t.goto (.inner i (j + 1)))
    | some desc =>
      let burst := t.burstTx j ++ [desc]
      some (sys, consumed, { t with
        burstTx := update t.burstTx j burst
        pc := if burst.length = cfg.maxBurstTx then .flush i j k else .packet i j (k + 1) })
  | .flush i j k, .run => do
    let sys ← sys.next cfg.maxBurstRx (.port (t.portsTx j) (.txBurst (t.burstTx j)))
    return (sys, consumed, t.goto (.transmit i j k))
  | .transmit i j k, .call .reserve => do
    let p ← sys.ports[t.portsTx j]?
    let sys ← sys.next cfg.maxBurstRx (.port (t.portsTx j) .reserve)
    return (sys, consumed, { t with
      submitted := update t.submitted j (t.submitted j ++ p.pc.burst)
      pc := .complete i j k })
  | .complete i j k, .call step =>
    if step.completes then do
      let sys ← sys.next cfg.maxBurstRx (.port (t.portsTx j) step)
      if sys.returned (t.portsTx j) then
        -- `btx->n_pkts = 0`
        return (sys, consumed, { t with
          burstTx := update t.burstTx j []
          pc := .packet i j (k + 1) })
      else return (sys, consumed, t)
    else none
  | _, _ => none

/-- The positions between the processing of two received bursts. -/
def PollPc.quiet : PollPc → Bool
  | .loop | .outer _ | .inner _ _ | .done => true
  | _ => false

/-- What a step of a thread can do, one case for each kind of branch. -/
inductive PollThread.Transition (cfg : PollConfig) (sys : PortSystem) (consumed : ℕ → List Desc)
    (t : PollThread) : PortSystem → (ℕ → List Desc) → PollThread → Prop
  /-- `poll`, the loop heads, and the skips. -/
  | control {revents : ℕ → Revents} {pc : PollPc} (hold : t.pc.quiet = true)
      (hnew : pc.quiet = true) :
      Transition cfg sys consumed t sys consumed { t with revents := revents, pc := pc }
  /-- `port_rx_burst` is called. -/
  | begin {i j : ℕ} {sys' : PortSystem} (hpc : t.pc = .inner i j) (hj : j < t.nPortsRx)
      (hnext : sys.next cfg.maxBurstRx (.port (t.portsRx j) .rxBurst) = some sys') :
      Transition cfg sys consumed t sys' consumed
        (t.goto (if sys'.returned (t.portsRx j) then .inner i (j + 1) else .receive i j))
  /-- The receive ring is peeked. -/
  | receive {i j m : ℕ} {p : Port} {sys' : PortSystem} (hpc : t.pc = .receive i j)
      (hget : sys.ports[t.portsRx j]? = some p)
      (hnext : sys.next cfg.maxBurstRx (.port (t.portsRx j) (.peek m)) = some sys') :
      Transition cfg sys consumed t sys'
        (update consumed (t.portsRx j) (consumed (t.portsRx j) ++ p.rxq.take m))
        { t with
          burstRx := p.rxq.take m
          pc := if m = 0 then .inner i (j + 1) else .replenish i j }
  /-- `port_rx_burst` goes on and may return. -/
  | replenish {i j : ℕ} {step : PortStep} {sys' : PortSystem} (hpc : t.pc = .replenish i j)
      (hkind : step.replenishes = true)
      (hnext : sys.next cfg.maxBurstRx (.port (t.portsRx j) step) = some sys') :
      Transition cfg sys consumed t sys' consumed
        (t.goto (if sys'.returned (t.portsRx j) then .packet i j 0 else .replenish i j))
  /-- The loop over the packets ends. -/
  | last {i j k : ℕ} (hpc : t.pc = .packet i j k) (hnone : t.burstRx[k]? = none) :
      Transition cfg sys consumed t sys consumed (t.goto (.inner i (j + 1)))
  /-- A packet is copied. -/
  | copy {i j k : ℕ} {desc : Desc} (hpc : t.pc = .packet i j k)
      (hdesc : t.burstRx[k]? = some desc) :
      Transition cfg sys consumed t sys consumed
        { t with
          burstTx := update t.burstTx j (t.burstTx j ++ [desc])
          pc := if (t.burstTx j ++ [desc]).length = cfg.maxBurstTx then .flush i j k
            else .packet i j (k + 1) }
  /-- `port_tx_burst` is called. -/
  | flush {i j k : ℕ} {sys' : PortSystem} (hpc : t.pc = .flush i j k)
      (hnext : sys.next cfg.maxBurstRx (.port (t.portsTx j) (.txBurst (t.burstTx j))) = some sys') :
      Transition cfg sys consumed t sys' consumed (t.goto (.transmit i j k))
  /-- The burst is submitted. -/
  | transmit {i j k : ℕ} {p : Port} {sys' : PortSystem} (hpc : t.pc = .transmit i j k)
      (hget : sys.ports[t.portsTx j]? = some p)
      (hnext : sys.next cfg.maxBurstRx (.port (t.portsTx j) .reserve) = some sys') :
      Transition cfg sys consumed t sys' consumed
        { t with
          submitted := update t.submitted j (t.submitted j ++ p.pc.burst)
          pc := .complete i j k }
  /-- `port_tx_burst` goes on and may return, which clears the burst. -/
  | complete {i j k : ℕ} {step : PortStep} {sys' : PortSystem} (hpc : t.pc = .complete i j k)
      (hkind : step.completes = true)
      (hnext : sys.next cfg.maxBurstRx (.port (t.portsTx j) step) = some sys') :
      Transition cfg sys consumed t sys' consumed
        (if sys'.returned (t.portsTx j) then
          { t with burstTx := update t.burstTx j [], pc := .packet i j (k + 1) }
        else t)

/-- Every step of a thread is one of the transitions. -/
theorem PollThread.transition_of_step {cfg : PollConfig} {sys sys' : PortSystem}
    {consumed consumed' : ℕ → List Desc} {t t' : PollThread} {choice : PollChoice}
    (hstep : t.step cfg sys consumed choice = some (sys', consumed', t')) :
    t.Transition cfg sys consumed sys' consumed' t' := by
  have hcontrol : ∀ {revents pc}, t.pc.quiet = true → pc.quiet = true →
      t.Transition cfg sys consumed sys consumed { t with revents := revents, pc := pc } :=
    fun hold hnew => .control hold hnew
  unfold PollThread.step at hstep
  split at hstep
  next hpc =>
    cases hstep
    exact hcontrol (by rw [hpc]; rfl) rfl
  next hpc =>
    cases hstep
    exact hcontrol (by rw [hpc]; rfl) rfl
  next hpc =>
    split_ifs at hstep <;> cases hstep <;> exact hcontrol (by rw [hpc]; rfl) rfl
  next hpc =>
    split_ifs at hstep with hj hready
    · simp only [Option.bind_eq_bind, Option.bind_eq_some_iff, Option.pure_def,
        Option.some.injEq, Prod.mk.injEq] at hstep
      obtain ⟨_, hnext, rfl, rfl, rfl⟩ := hstep
      exact .begin hpc hj hnext
    all_goals
      cases hstep
      exact hcontrol (by rw [hpc]; rfl) rfl
  next hpc =>
    simp only [Option.bind_eq_bind, Option.bind_eq_some_iff, Option.pure_def,
      Option.some.injEq, Prod.mk.injEq] at hstep
    obtain ⟨_, hget, _, hnext, rfl, rfl, rfl⟩ := hstep
    exact .receive hpc hget hnext
  next hpc =>
    split_ifs at hstep with hkind
    simp only [Option.bind_eq_bind, Option.bind_eq_some_iff, Option.pure_def,
      Option.some.injEq, Prod.mk.injEq] at hstep
    obtain ⟨_, hnext, rfl, rfl, rfl⟩ := hstep
    exact .replenish hpc hkind hnext
  next hpc =>
    split at hstep
    next hnone =>
      cases hstep
      exact .last hpc hnone
    next hdesc =>
      cases hstep
      exact .copy hpc hdesc
  next hpc =>
    simp only [Option.bind_eq_bind, Option.bind_eq_some_iff, Option.pure_def,
      Option.some.injEq, Prod.mk.injEq] at hstep
    obtain ⟨_, hnext, rfl, rfl, rfl⟩ := hstep
    exact .flush hpc hnext
  next hpc =>
    simp only [Option.bind_eq_bind, Option.bind_eq_some_iff, Option.pure_def,
      Option.some.injEq, Prod.mk.injEq] at hstep
    obtain ⟨_, hget, _, hnext, rfl, rfl, rfl⟩ := hstep
    exact .transmit hpc hget hnext
  next hpc =>
    split_ifs at hstep with hkind
    simp only [Option.bind_eq_bind, Option.bind_eq_some_iff] at hstep
    obtain ⟨_, hnext, hstep⟩ := hstep
    have hcomplete : t.Transition cfg sys consumed _ consumed _ := .complete hpc hkind hnext
    split_ifs at hstep hcomplete <;> cases hstep <;> exact hcomplete
  · cases hstep

/-- The whole program: the ports, the threads on them, and the log of what has
left each receive ring. -/
structure Forwarder where
  /-- The pool and the ports. -/
  sys : PortSystem
  /-- The forwarding threads. -/
  threads : List PollThread
  /-- The packets taken from the receive ring of each port so far. -/
  consumed : ℕ → List Desc

/-- A step of the forwarder: the kernel's, or one of a thread. -/
inductive ForwardLabel
  /-- The kernel receives a packet. -/
  | kernelRx (i k : ℕ) (desc : Desc)
  /-- The kernel ends a transmission. -/
  | kernelTx (i k addr : ℕ)
  /-- A thread takes a step. -/
  | thread (a : ℕ) (choice : PollChoice)

/-- The forwarder after a step. -/
def Forwarder.next (cfg : PollConfig) (fw : Forwarder) : ForwardLabel → Option Forwarder
  | .kernelRx i k desc => do
    let sys ← fw.sys.next cfg.maxBurstRx (.kernelRx i k desc)
    return { fw with sys := sys }
  | .kernelTx i k addr => do
    let sys ← fw.sys.next cfg.maxBurstRx (.kernelTx i k addr)
    return { fw with sys := sys }
  | .thread a choice => do
    let t ← fw.threads[a]?
    let (sys, consumed, t') ← t.step cfg fw.sys fw.consumed choice
    return ⟨sys, fw.threads.set a t', consumed⟩

/-- The receiving ports of all threads have distinct sockets. -/
def Forwarder.DistinctSockets (cfg : PollConfig) (threads : List PollThread) : Prop :=
  ∀ (a b : ℕ) (t u : PollThread), threads[a]? = some t → threads[b]? = some u →
    ∀ j < t.nPortsRx, ∀ l < u.nPortsRx, cfg.fd (t.portsRx j) = cfg.fd (u.portsRx l) → a = b ∧ j = l

/-- The forwarder starts its threads on ports built by `port_init`. No packet has
been received and no call is in progress. -/
def forwardMachine (env : InitEnv) (params : BpoolParams) (umemCfg : XskUmemConfig)
    (cfg : PollConfig) : Machine Forwarder ForwardLabel where
  start fw := (portMachine env params umemCfg cfg.maxBurstRx).Reachable fw.sys ∧
    (∀ p ∈ fw.sys.ports, p.pc = .idle) ∧ fw.sys.pending = [] ∧ fw.consumed = (fun _ => []) ∧
    Forwarder.DistinctSockets cfg fw.threads ∧
    ∀ t ∈ fw.threads, ∃ nPortsRx portsRx portsTx, t = .initial nPortsRx portsRx portsTx
  next := Forwarder.next cfg

end Hack.Xsk
