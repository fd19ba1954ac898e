import Hack.Xsk.PollSteps

/-!
# The poll threads forward in order

The threads of a forwarder and the kernel interleave freely on shared ports. A
thread only moves a port whose call it started itself, so the invariants of all
threads hold together, and every index of every thread submits what it consumed,
in the same order.
-/

namespace Hack.Xsk

/-- What every run of the forwarder keeps. -/
structure Forwarder.Inv (cfg : PollConfig) (fw : Forwarder) : Prop where
  /-- The sockets stay distinct. -/
  distinct : DistinctSockets cfg fw.threads
  /-- Every thread's invariant holds. -/
  threads : ∀ t ∈ fw.threads, t.Inv cfg fw.sys fw.consumed
  /-- No port has calls of two threads in progress. -/
  exclusive : ∀ (a b : ℕ) (t u : PollThread), fw.threads[a]? = some t →
    fw.threads[b]? = some u → a ≠ b → ∀ x, t.activePort = some x → u.activePort ≠ some x

namespace Forwarder.Inv

variable {env : InitEnv} {params : BpoolParams} {umemCfg : XskUmemConfig} {cfg : PollConfig}
  {fw fw' : Forwarder} {sys : PortSystem} {a b : ℕ} {t t' u : PollThread} {consumed : ℕ → List Desc}

/-- The threads of a starting forwarder have done nothing. -/
theorem of_start (htx : 0 < cfg.maxBurstTx)
    (hstart : (forwardMachine env params umemCfg cfg).start fw) : fw.Inv cfg := by
  obtain ⟨-, -, -, hconsumed, hdistinct, hinitial⟩ := hstart
  refine ⟨hdistinct, ?_, ?_⟩
  · intro t ht
    obtain ⟨n, rx, tx, rfl⟩ := hinitial t ht
    refine ⟨fun j hj => ?_, fun x hx => ?_, fun j _ => ?_, fun j _ => Or.inl htx⟩
    · cases hj
    · cases hx
    · rw [hconsumed]
      rfl
  · intro a b t u hta _ _ x hx
    obtain ⟨n, rx, tx, rfl⟩ := hinitial t (List.mem_of_getElem? hta)
    cases hx

section Steps

variable (hinv : fw.Inv cfg)
include hinv

/-- A step that moves no port keeps the invariant. -/
theorem of_kernel (hsame : ∀ x, sys.pcAt x = fw.sys.pcAt x) : Inv cfg { fw with sys := sys } := by
  refine ⟨hinv.distinct, fun t ht => ?_, hinv.exclusive⟩
  have ht := hinv.threads t ht
  refine ⟨ht.index_lt, fun x hx => ?_, ht.tracks, ht.bounded⟩
  rw [hsame x]
  exact ht.holds x hx

/-- Within a thread distinct sockets mean distinct ports. -/
theorem portsRx_injective (hget : fw.threads[a]? = some t) :
    ∀ j < t.nPortsRx, ∀ l < t.nPortsRx, t.portsRx j = t.portsRx l → j = l :=
  fun j hj l hl h => (hinv.distinct a a t t hget hget j hj l hl (congrArg cfg.fd h)).2

/-- The invariant of a thread survives the steps of another one. -/
theorem of_frame (hta : fw.threads[a]? = some t) (hub : fw.threads[b]? = some u) (hne : a ≠ b)
    (hframe : t.Frame fw.sys fw.consumed sys consumed t') : u.Inv cfg sys consumed := by
  have hu := hinv.threads u (List.mem_of_getElem? hub)
  refine ⟨hu.index_lt, fun x hx => ?_, fun j hj => ?_, hu.bounded⟩
  · obtain ⟨pc, hpc, hexpects⟩ := hu.holds x hx
    have hidle : pc ≠ .idle := by
      rintro rfl
      exact PollThread.not_expects_idle hexpects
    have hother := hinv.exclusive b a u t hub hta hne.symm x hx
    exact ⟨pc, hframe.pcAt_eq x pc hpc hidle hother, hexpects⟩
  · rw [hframe.consumed_eq _ fun l hl h =>
      hne (hinv.distinct a b t u hta hub l hl j hj (congrArg cfg.fd h)).1]
    exact hu.tracks j hj

/-- The sockets stay distinct, because threads keep their ports. -/
theorem distinct_of_frame (hta : fw.threads[a]? = some t)
    (hframe : t.Frame fw.sys fw.consumed sys consumed t') :
    DistinctSockets cfg (fw.threads.set a t') := by
  have hold : ∀ (b : ℕ) (u : PollThread), (fw.threads.set a t')[b]? = some u →
      ∃ w : PollThread, fw.threads[b]? = some w ∧ w.nPortsRx = u.nPortsRx ∧
        w.portsRx = u.portsRx := by
    intro b u hub
    rcases Custody.getElem?_set_cases hub with ⟨rfl, rfl⟩ | ⟨-, hub⟩
    · exact ⟨t, hta, hframe.nPortsRx_eq.symm, hframe.portsRx_eq.symm⟩
    · exact ⟨u, hub, rfl, rfl⟩
  intro b c u v hub hvc j hj l hl hfd
  obtain ⟨w, hw, hwn, hwrx⟩ := hold b u hub
  obtain ⟨z, hz, hzn, hzrx⟩ := hold c v hvc
  rw [← hwrx, ← hzrx] at hfd
  exact hinv.distinct b c w z hw hz j (hwn ▸ hj) l (hzn ▸ hl) hfd

/-- The call of a stepped thread is an old one of its own or starts on an idle
port, so it is on no port of another thread. -/
theorem activePort_ne_of_frame (hta : fw.threads[a]? = some t) (hub : fw.threads[b]? = some u)
    (hne : b ≠ a) (hframe : t.Frame fw.sys fw.consumed sys consumed t') {x : ℕ}
    (hx : t'.activePort = some x) : u.activePort ≠ some x := by
  intro hux
  rcases hframe.active x hx with hactive | hidle
  · exact hinv.exclusive a b t u hta hub hne.symm x hactive hux
  · obtain ⟨pc, hpc, hexpects⟩ := (hinv.threads u (List.mem_of_getElem? hub)).holds x hux
    rw [hidle] at hpc
    cases hpc
    exact PollThread.not_expects_idle hexpects

/-- A step of a thread keeps the invariant. -/
theorem of_thread (htx : 0 < cfg.maxBurstTx) {choice : PollChoice} (hta : fw.threads[a]? = some t)
    (hstep : t.step cfg fw.sys fw.consumed choice = some (sys, consumed, t')) :
    Inv cfg ⟨sys, fw.threads.set a t', consumed⟩ := by
  have ht := hinv.threads t (List.mem_of_getElem? hta)
  obtain ⟨hinv', hframe⟩ :=
    (PollThread.transition_of_step hstep).spec ht htx (hinv.portsRx_injective hta)
  refine ⟨hinv.distinct_of_frame hta hframe, ?_, ?_⟩
  · intro u hu
    obtain ⟨b, hub⟩ := List.mem_iff_getElem?.mp hu
    rcases Custody.getElem?_set_cases hub with ⟨-, rfl⟩ | ⟨hba, hub⟩
    · exact hinv'
    · exact hinv.of_frame hta hub hba.symm hframe
  · intro b c u v hub hvc hbc x hux hvx
    rcases Custody.getElem?_set_cases hub with ⟨rfl, rfl⟩ | ⟨hba, hub'⟩
    · rcases Custody.getElem?_set_cases hvc with ⟨rfl, -⟩ | ⟨hca, hvc'⟩
      · exact hbc rfl
      · exact hinv.activePort_ne_of_frame hta hvc' hca hframe hux hvx
    · rcases Custody.getElem?_set_cases hvc with ⟨rfl, rfl⟩ | ⟨-, hvc'⟩
      · exact hinv.activePort_ne_of_frame hta hub' hba hframe hvx hux
      · exact hinv.exclusive b c u v hub' hvc' hbc x hux hvx

/-- Every step of the forwarder keeps the invariant. -/
theorem next (htx : 0 < cfg.maxBurstTx) {label : ForwardLabel}
    (hnext : fw.next cfg label = some fw') : fw'.Inv cfg := by
  have hkernel : ∀ {i : ℕ} {p p' : Port}, fw.sys.ports[i]? = some p → p'.pc = p.pc →
      ∀ x, (fw.sys.replace i fw.sys.bp fw.sys.pending p').pcAt x = fw.sys.pcAt x := by
    intro i p p' hget hpc x
    by_cases hx : x = i
    · subst hx
      rw [PortSystem.pcAt_replace_self hget, PortSystem.pcAt, hget, hpc, Option.map_some]
    · exact PortSystem.pcAt_replace_of_ne hx
  cases label with
  | kernelRx i k desc =>
    simp only [Forwarder.next, PortSystem.next, Option.bind_eq_bind, Option.bind_eq_some_iff,
      Option.ite_none_right_eq_some, Option.pure_def, Option.some.injEq] at hnext
    obtain ⟨_, ⟨p, hget, _, -, -, rfl⟩, rfl⟩ := hnext
    exact hinv.of_kernel (hkernel hget rfl)
  | kernelTx i k addr =>
    simp only [Forwarder.next, PortSystem.next, Option.bind_eq_bind, Option.bind_eq_some_iff,
      Option.ite_none_right_eq_some, Option.pure_def, Option.some.injEq] at hnext
    obtain ⟨_, ⟨p, hget, _, -, -, rfl⟩, rfl⟩ := hnext
    exact hinv.of_kernel (hkernel hget rfl)
  | thread a choice =>
    simp only [Forwarder.next, Option.bind_eq_bind, Option.bind_eq_some_iff, Option.pure_def,
      Option.some.injEq, Prod.exists] at hnext
    obtain ⟨t, hta, sys, consumed, t', hstep, rfl⟩ := hnext
    exact hinv.of_thread htx hta hstep

end Steps

/-- The invariant holds in every reachable state of the forwarder. -/
theorem of_reachable (htx : 0 < cfg.maxBurstTx)
    (hreach : (forwardMachine env params umemCfg cfg).Reachable fw) : fw.Inv cfg :=
  hreach.invariant (Forwarder.Inv cfg) (fun _ hs => of_start htx hs)
    (fun _ _ _ hinv _ hnext => hinv.next htx hnext)

end Forwarder.Inv

/-- The poll threads forward in order. At every point and for every index, the
submitted packets, the unsent ones of the transmit burst, and the uncopied ones
of the received burst are together the packets consumed from the receive ring.
Between received bursts nothing is uncopied and the transmit burst is the unsent
part; it is full only while it is being submitted. -/
theorem pollThread_forwards_in_order (env : InitEnv) (params : BpoolParams)
    (umemCfg : XskUmemConfig) (cfg : PollConfig) (htx : 1 ≤ cfg.maxBurstTx) {fw : Forwarder}
    (hreach : (forwardMachine env params umemCfg cfg).Reachable fw) {t : PollThread}
    (ht : t ∈ fw.threads) {j : ℕ} (hj : j < t.nPortsRx) :
    t.submitted j ++ t.unsent j ++ t.uncopied j = fw.consumed (t.portsRx j) ∧
      (t.pc.index ≠ some j → t.submitted j ++ t.burstTx j = fw.consumed (t.portsRx j)) ∧
      (t.pc.flushing j = false → (t.burstTx j).length < cfg.maxBurstTx) := by
  have hinv := (Forwarder.Inv.of_reachable htx hreach).threads t ht
  have htracks := hinv.tracks j hj
  refine ⟨htracks, fun hindex => ?_, fun hflushing => ?_⟩
  · have hnone : t.unsent j = t.burstTx j ∧ t.uncopied j = [] := by
      simp only [PollThread.unsent, PollThread.uncopied]
      revert hindex
      cases t.pc <;> simp +contextual
    rwa [hnone.1, hnone.2, List.append_nil] at htracks
  · refine (hinv.bounded j hj).resolve_right fun hfull => ?_
    cases hflushing.symm.trans hfull.1

/-- Two idle ports on the tiny pool. -/
def PortSystem.tiny : PortSystem :=
  ((portMachine .granting .tiny .tiny 64).run ⟨BpoolParams.tiny.pool .tiny, [], [], []⟩
    PortLabel.tinyPorts).getD ⟨BpoolParams.tiny.pool .tiny, [], [], []⟩

/-- Socket descriptors equal to port numbers, and the receive bursts of the source. -/
def PollConfig.sample (maxBurstTx : ℕ) : PollConfig := ⟨64, maxBurstTx, id⟩

/-- One thread that forwards from the first port to the second. -/
def Forwarder.sample : Forwarder := ⟨.tiny, [.initial 1 (fun _ => 0) (fun _ => 1)], fun _ => []⟩

/-- The sample forwarder is a starting state. -/
theorem Forwarder.sample_start (maxBurstTx : ℕ) :
    (forwardMachine .granting .tiny .tiny (.sample maxBurstTx)).start sample := by
  have hrun : (portMachine .granting .tiny .tiny 64).run
      ⟨BpoolParams.tiny.pool .tiny, [], [], []⟩ PortLabel.tinyPorts = some PortSystem.tiny := rfl
  have hidle : (sample.sys.ports.all fun p => p.pc = .idle) = true := rfl
  refine ⟨.of_run (.start ⟨_, rfl, rfl⟩) hrun, by simpa using hidle, rfl, rfl, ?_, ?_⟩
  · intro a b t u hta hub j hj l hl _
    obtain ⟨ha, rfl⟩ := List.getElem?_eq_some_iff.mp hta
    obtain ⟨hb, rfl⟩ := List.getElem?_eq_some_iff.mp hub
    simp only [sample, List.length_singleton, Nat.lt_one_iff] at ha hb
    subst ha hb
    simp only [sample, List.getElem_cons_zero, PollThread.initial, Nat.lt_one_iff] at hj hl
    omega
  · intro t ht
    exact ⟨1, _, _, List.mem_singleton.mp ht⟩

/-- A packet arrives at the first port, and the thread receives it. -/
def ForwardLabel.sampleReceive : List ForwardLabel :=
  [.kernelRx 0 0 ⟨4352, 60⟩, .thread 0 (.poll fun _ => ⟨true, false, false⟩), .thread 0 .run,
    .thread 0 .run, .thread 0 (.call (.peek 1)), .thread 0 (.call .reserve),
    .thread 0 (.call .transfer), .thread 0 (.call .finish)]

/-- The thread copies the packet, submits the burst, and goes on to the next port. -/
def ForwardLabel.sampleForward : List ForwardLabel :=
  [.thread 0 .run, .thread 0 .run, .thread 0 (.call .reserve), .thread 0 (.call (.peek 0)),
    .thread 0 (.call .finish), .thread 0 .run]

/-- With transmit bursts of one packet, the received packet has been submitted. -/
theorem pollThread_forwards_in_order_sample : ∃ fw t,
    (forwardMachine .granting .tiny .tiny (.sample 1)).Reachable fw ∧ t ∈ fw.threads ∧
      t.submitted 0 = [⟨4352, 60⟩] ∧ t.submitted 0 ++ t.burstTx 0 = fw.consumed 0 := by
  -- The run is evaluated by the kernel, once for all of its results.
  have heval : ((forwardMachine .granting .tiny .tiny (.sample 1)).run .sample
      (ForwardLabel.sampleReceive ++ ForwardLabel.sampleForward)).any (fun fw =>
        fw.threads[0]?.any fun t => t.nPortsRx = 1 ∧ t.portsRx 0 = 0 ∧ t.pc.index = none ∧
          t.submitted 0 = [⟨4352, 60⟩]) = true := by decide +kernel
  obtain ⟨fw, hrun, heval⟩ := (Option.any_eq_true _ _).mp heval
  obtain ⟨t, hget, heval⟩ := (Option.any_eq_true _ _).mp heval
  obtain ⟨hn, hrx, hindex, hsubmitted⟩ := of_decide_eq_true heval
  have hreach : (forwardMachine .granting .tiny .tiny (.sample 1)).Reachable fw :=
    .of_run (.start (Forwarder.sample_start 1)) hrun
  have ht := List.mem_of_getElem? hget
  have hj : 0 < t.nPortsRx := by omega
  obtain ⟨-, hquiet, -⟩ := pollThread_forwards_in_order .granting .tiny .tiny (.sample 1)
    le_rfl hreach ht hj
  refine ⟨fw, t, hreach, ht, hsubmitted, ?_⟩
  rw [hquiet (by rw [hindex]; decide), hrx]

/-- Between the receive call and the first copy the received packet is neither
submitted nor in the transmit burst. -/
theorem received_packet_not_yet_pending : ∃ fw t,
    (forwardMachine .granting .tiny .tiny (.sample 64)).Reachable fw ∧ t ∈ fw.threads ∧
      0 < t.nPortsRx ∧ t.submitted 0 ++ t.burstTx 0 ≠ fw.consumed (t.portsRx 0) := by
  have heval : ((forwardMachine .granting .tiny .tiny (.sample 64)).run .sample
      ForwardLabel.sampleReceive).any (fun fw => fw.threads[0]?.any fun t =>
        t.nPortsRx = 1 ∧ t.submitted 0 ++ t.burstTx 0 = [] ∧
          fw.consumed (t.portsRx 0) = [⟨4352, 60⟩]) = true := by decide +kernel
  obtain ⟨fw, hrun, heval⟩ := (Option.any_eq_true _ _).mp heval
  obtain ⟨t, hget, heval⟩ := (Option.any_eq_true _ _).mp heval
  obtain ⟨hn, hpending, hconsumed⟩ := of_decide_eq_true heval
  refine ⟨fw, t, .of_run (.start (Forwarder.sample_start 64)) hrun, List.mem_of_getElem? hget,
    by omega, ?_⟩
  rw [hpending, hconsumed]
  simp

end Hack.Xsk
