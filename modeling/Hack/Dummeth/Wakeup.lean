import Hack.Dummeth.Transitions

/-!
# Receive wake-ups in NAPI mode

A transmitter enqueues its packet first and tests afterwards whether the receiver
wants an interrupt. The receiver turns interrupts off while it polls, and on again
when it completes a poll. A packet that arrives between the last look of a poll at
the queue and its completion is not announced by anybody: its transmitter found
interrupts turned off, and the completing poll does not look again. Apart from
that the protocol is sound. While the queue is not empty, a poll is scheduled, or
the receive bit of the status word is set and a handler is about to see it, or a
transmitter is still on its way to setting it. Every step keeps this, except for a
completion at the wrong time.
-/

namespace Hack.Dummeth

/-- The operations on the receiving side of a device and on its wire: transmissions
of the twin device, and interrupts and polls of the device itself. -/
def Op.Receives (d : DevId) : Op → Prop
  | .xmit e _ _ => e = d.twin
  | .hwTx e _ => e = d.twin
  | .napiInterrupt e => e = d
  | .poll e _ => e = d
  | _ => False

/-- The events of such operations. -/
def Event.Receives (d : DevId) : Event → Prop
  | .call op => op.Receives d
  | .run _ _ => True

/-- A transmitter to a device has enqueued its packet, and is not yet past the point
where it sets the receive bit or finds interrupts turned off. -/
def Pc.Announces (d : DevId) : Pc → Prop
  | .hwTxTestRx e _ => e = d.twin
  | .hwTxReadRx e _ => e = d.twin
  | .hwTxWriteRx e _ _ => e = d.twin
  | _ => False

/-- A packet on the receive queue is still to be announced. -/
def Announced (d : DevId) (s : Devices) (pcs : List Pc) : Prop :=
  (s.priv d).status.rxIntr = true ∨ ∃ pc ∈ pcs, pc.Announces d

/-- The condition on a step: a poll of the device that completes without a missed
schedule leaves no packet behind that nobody is about to announce. -/
def CompletesInTime (d : DevId) (t : System) : Event → Prop
  | .call _ => True
  | .run i _ => ∀ stack, t.threads[i]? = some (.pollComplete d :: stack) →
      (t.devices.priv d).napi.missed = false → (t.devices.priv d).rxQueue = none ∨
        Announced d t.devices t.pcs

/-- The program counters of the operations on the receiving side. -/
@[simp] def Pc.Receives (d : DevId) : Pc → Prop
  | .xmitStore e _ _ => e = d.twin
  | .hwTx e _ => e = d.twin
  | .hwTxFill e _ _ => e = d.twin
  | .hwTxEnqueue e _ _ => e = d.twin
  | .hwTxTestRx e _ => e = d.twin
  | .hwTxReadRx e _ => e = d.twin
  | .hwTxWriteRx e _ _ => e = d.twin
  | .hwTxLen e _ => e = d.twin
  | .hwTxReadTx e => e = d.twin
  | .hwTxWriteTx e _ => e = d.twin
  | .hwTxLockup e => e = d.twin
  | .napiInterrupt _ => True
  | .release _ => True
  | .releaseStopped _ => True
  | .releaseNext _ => True
  | .releaseWake _ => True
  | .pollTest e _ _ => e = d
  | .pollDequeue e _ _ => e = d
  | .pollRx e _ _ _ => e = d
  | .pollComplete e => e = d
  | _ => False

/-- The invariant of the receiving side, over all program counters. -/
structure WakeInv (d : DevId) (s : Devices) (pcs : List Pc) : Prop where
  /-- Only the operations in question are in progress. -/
  receives : ∀ pc ∈ pcs, pc.Receives d
  /-- Polling is enabled. -/
  enabled : (s.priv d).napi.enabled = true
  /-- Interrupts are turned off only while a poll is scheduled. -/
  sched_of_disabled : (s.priv d).rxIntEnabled = false → (s.priv d).napi.sched = true
  /-- A set receive bit will be seen by an interrupt handler. -/
  handler_of_rxIntr : (s.priv d).status.rxIntr = true → .napiInterrupt d ∈ pcs
  /-- A packet on the queue is announced, or a poll is scheduled. -/
  announced : (s.priv d).rxQueue.isSome → (s.priv d).napi.sched = true ∨ Announced d s pcs

/-- The receiving side of a device sees no change, except that its queue may have
become empty. -/
structure QuietRx (d : DevId) (s s' : Devices) : Prop where
  rxQueue_isSome : (s'.priv d).rxQueue.isSome → (s.priv d).rxQueue.isSome
  rxIntr_eq : (s'.priv d).status.rxIntr = (s.priv d).status.rxIntr
  rxIntEnabled_eq : (s'.priv d).rxIntEnabled = (s.priv d).rxIntEnabled
  napi_eq : (s'.priv d).napi = (s.priv d).napi

variable {d e : DevId} {s s' : Devices} {pc : Pc} {pcs rest : List Pc} {t : System} {len : ℕ}
  {cfg : Config} {event : Event}

/-- Equal private data look the same. -/
theorem QuietRx.of_eq (h : s'.priv d = s.priv d) : QuietRx d s s' := by
  constructor <;> simp [h]

/-- A change of private data that the receiving side does not see. -/
theorem QuietRx.modify {t : Devices} {f : Priv → Priv} (ht : t.priv = s.priv)
    (hf : ∀ priv, (f priv).rxQueue = priv.rxQueue ∧ (f priv).status.rxIntr = priv.status.rxIntr ∧
      (f priv).rxIntEnabled = priv.rxIntEnabled ∧ (f priv).napi = priv.napi) :
    QuietRx d s (t.modify e f) := by
  rcases eq_or_ne d e with rfl | hne
  · obtain ⟨h₁, h₂, h₃, h₄⟩ := hf (s.priv d)
    constructor <;> simp [ht, h₁, h₂, h₃, h₄]
  · exact .of_eq ((t.priv_modify_of_ne hne f).trans (congrFun ht d))

/-- Program counters still to announce a packet are found wherever they stand. -/
theorem Announced.mono {pcs' : List Pc} (h : Announced d s pcs) (hsub : ∀ pc ∈ pcs, pc ∈ pcs') :
    Announced d s pcs' :=
  h.imp_right fun ⟨pc, hpc, hann⟩ => ⟨pc, hsub pc hpc, hann⟩

/-- The announcement of a packet does not rest on a counter that announces nothing. -/
theorem Announced.of_cons (h : Announced d s (pc :: rest)) (hpc : ¬pc.Announces d) :
    Announced d s rest := by
  refine h.imp_right ?_
  rintro ⟨pc', hmem, hann⟩
  rcases List.mem_cons.mp hmem with rfl | hmem
  · exact absurd hann hpc
  · exact ⟨pc', hmem, hann⟩

/-- The receiving side sees the same announcements. -/
theorem QuietRx.announced (hsame : QuietRx d s s') (h : Announced d s pcs) : Announced d s' pcs :=
  h.imp_left fun hrx => hsame.rxIntr_eq.trans hrx

/-- A step that the receiving side does not see, of a counter that is neither about
to handle an interrupt of the device nor to announce a packet to it. -/
theorem WakeInv.of_same (h : WakeInv d s (pc :: rest)) (hsame : QuietRx d s s')
    (hreceives : ∀ pc' ∈ pcs, pc'.Receives d) (hhandler : pc ≠ .napiInterrupt d)
    (hann : ¬pc.Announces d) : WakeInv d s' (pcs ++ rest) := by
  refine ⟨fun pc' hpc' => ?_, ?_, fun hdisabled => ?_, fun hrx => ?_, fun hqueue => ?_⟩
  · rcases List.mem_append.mp hpc' with hpc' | hpc'
    · exact hreceives pc' hpc'
    · exact h.receives pc' (List.mem_cons_of_mem _ hpc')
  · rw [hsame.napi_eq]
    exact h.enabled
  · rw [hsame.napi_eq]
    exact h.sched_of_disabled (hsame.rxIntEnabled_eq.symm.trans hdisabled)
  · have hmem := h.handler_of_rxIntr (hsame.rxIntr_eq.symm.trans hrx)
    exact List.mem_append_right _ (List.mem_of_ne_of_mem hhandler.symm hmem)
  · rw [hsame.napi_eq]
    refine (h.announced (hsame.rxQueue_isSome hqueue)).imp_right fun h => ?_
    exact hsame.announced ((h.of_cons hann).mono fun pc' => List.mem_append_right _)

/-- A step of a transmitter that touches only its own device. -/
theorem WakeInv.of_twin (h : WakeInv d s (pc :: rest)) (hpriv : s'.priv d = s.priv d)
    (hreceives : ∀ pc' ∈ pcs, pc'.Receives d) (hhandler : pc ≠ .napiInterrupt d)
    (hann : ¬pc.Announces d) : WakeInv d s' (pcs ++ rest) :=
  h.of_same (.of_eq hpriv) hreceives hhandler hann

/-- A step that replaces its counter by one that still announces the packet. -/
theorem WakeInv.of_announcing {pc' : Pc} (h : WakeInv d s (pc :: rest))
    (hrxIntr : (s'.priv d).status.rxIntr = (s.priv d).status.rxIntr)
    (hrxIntEnabled : (s'.priv d).rxIntEnabled = (s.priv d).rxIntEnabled)
    (hnapi : (s'.priv d).napi = (s.priv d).napi) (hhandler : pc ≠ .napiInterrupt d)
    (hreceives : pc'.Receives d) (hann : pc'.Announces d) : WakeInv d s' ([pc'] ++ rest) := by
  refine ⟨?_, hnapi ▸ h.enabled, ?_, fun hrx => ?_, fun _ => ?_⟩
  · exact List.forall_mem_cons.mpr
      ⟨hreceives, fun pc'' hpc'' => h.receives pc'' (List.mem_cons_of_mem _ hpc'')⟩
  · rw [hrxIntEnabled, hnapi]
    exact h.sched_of_disabled
  · have hmem := h.handler_of_rxIntr (hrxIntr.symm.trans hrx)
    exact List.mem_cons_of_mem _ (List.mem_of_ne_of_mem hhandler.symm hmem)
  · exact .inr (.inr ⟨pc', List.mem_cons_self, hann⟩)

/-- Scheduling does not enable or disable polling. -/
theorem Napi.schedule_enabled (napi : Napi) : napi.schedule.enabled = napi.enabled := by
  unfold Napi.schedule
  split_ifs <;> rfl

/-- While polling is enabled, scheduling leaves a poll scheduled. -/
theorem Napi.schedule_sched {napi : Napi} (h : napi.enabled = true) :
    napi.schedule.sched = true := by
  unfold Napi.schedule
  split_ifs with hdisabled hsched
  · simp [h] at hdisabled
  · exact hsched
  · rfl

/-- An interrupt of the device schedules a poll when the receive bit was set. -/
theorem WakeInv.napiInterrupt (h : WakeInv d s (.napiInterrupt d :: rest))
    (hpriv : s'.priv d = (s.priv d).napiInterrupted) : WakeInv d s' rest := by
  have hreceives : ∀ pc ∈ rest, pc.Receives d := fun pc hpc =>
    h.receives pc (List.mem_cons_of_mem _ hpc)
  have hhandler : (s'.priv d).status.rxIntr = true → Pc.napiInterrupt d ∈ rest := by
    simp [hpriv]
  cases hrx : (s.priv d).status.rxIntr with
  | true =>
    have hnapi : (s'.priv d).napi = (s.priv d).napi.schedule := by
      simp [hpriv, hrx]
    have hsched : (s'.priv d).napi.sched = true := hnapi ▸ Napi.schedule_sched h.enabled
    refine ⟨hreceives, ?_, fun _ => hsched, hhandler, fun _ => .inl hsched⟩
    rw [hnapi, Napi.schedule_enabled]
    exact h.enabled
  | false =>
    have hnapi : (s'.priv d).napi = (s.priv d).napi := by
      simp [hpriv, hrx]
    have henabled : (s'.priv d).rxIntEnabled = (s.priv d).rxIntEnabled := by
      simp [hpriv, hrx]
    refine ⟨hreceives, ?_, ?_, hhandler, fun hsome => ?_⟩
    · rw [hnapi]
      exact h.enabled
    · rw [hnapi, henabled]
      exact h.sched_of_disabled
    · rw [hnapi]
      rw [hpriv] at hsome
      refine (h.announced hsome).imp_right fun hann => ?_
      rcases hann.of_cons (by simp [Pc.Announces]) with hann | hann
      · simp [hrx] at hann
      · exact .inr hann

/-- A poll that completes in time. -/
theorem WakeInv.pollComplete (h : WakeInv d s (.pollComplete d :: rest))
    (hsafe : (s.priv d).napi.missed = false →
      (s.priv d).rxQueue = none ∨ Announced d s (.pollComplete d :: rest))
    (hpriv : s'.priv d = { s.priv d with
      napi := (s.priv d).napi.completeDone.1
      rxIntEnabled := (s.priv d).rxIntEnabled || !(s.priv d).napi.missed }) :
    WakeInv d s' rest := by
  have hreceives : ∀ pc ∈ rest, pc.Receives d := fun pc hpc =>
    h.receives pc (List.mem_cons_of_mem _ hpc)
  have hrx : (s'.priv d).status.rxIntr = (s.priv d).status.rxIntr := by rw [hpriv]
  have hqueue : (s'.priv d).rxQueue = (s.priv d).rxQueue := by rw [hpriv]
  have hhandler : (s'.priv d).status.rxIntr = true → Pc.napiInterrupt d ∈ rest := fun h' =>
    List.mem_of_ne_of_mem (by simp) (h.handler_of_rxIntr (hrx.symm.trans h'))
  have hann : Announced d s (.pollComplete d :: rest) → Announced d s' rest := fun hann =>
    (hann.of_cons (by simp [Pc.Announces])).imp_left fun h' => hrx.trans h'
  cases hmissed : (s.priv d).napi.missed with
  | true =>
    have hkept : (s'.priv d).napi = { (s.priv d).napi with missed := false } := by
      rw [hpriv, Napi.completeDone, if_pos hmissed]
    have henabled : (s'.priv d).rxIntEnabled = (s.priv d).rxIntEnabled := by
      simp [hpriv, hmissed]
    refine ⟨hreceives, ?_, ?_, hhandler, fun hsome => ?_⟩
    · rw [hkept]
      exact h.enabled
    · rw [hkept, henabled]
      exact h.sched_of_disabled
    · rw [hkept]
      exact (h.announced (hqueue ▸ hsome)).imp_right hann
  | false =>
    have hdone : (s'.priv d).napi = { (s.priv d).napi with sched := false } := by
      rw [hpriv, Napi.completeDone, if_neg (by simp [hmissed])]
    refine ⟨hreceives, ?_, ?_, hhandler, fun hsome => ?_⟩
    · rw [hdone]
      exact h.enabled
    · simp [hpriv, hmissed]
    · rw [hqueue] at hsome
      rcases hsafe hmissed with hnone | hsafe
      · simp [hnone] at hsome
      · exact .inr (hann hsafe)

/-- A transmitter that finds interrupts turned off can rely on the scheduled poll. -/
theorem WakeInv.testRxOff (h : WakeInv d s (.hwTxTestRx d.twin len :: rest))
    (hoff : (s.priv d).rxIntEnabled = false) : WakeInv d s ([.hwTxLen d.twin len] ++ rest) := by
  have hsched := h.sched_of_disabled hoff
  refine ⟨?_, h.enabled, h.sched_of_disabled, fun hrx => ?_, fun _ => .inl hsched⟩
  · exact List.forall_mem_cons.mpr
      ⟨rfl, fun pc hpc => h.receives pc (List.mem_cons_of_mem _ hpc)⟩
  · exact List.mem_cons_of_mem _ (List.mem_of_ne_of_mem (by simp) (h.handler_of_rxIntr hrx))

/-- A transmitter that sets the receive bit calls the interrupt handler next. -/
theorem WakeInv.writeRx {old : Status} (h : WakeInv d s (.hwTxWriteRx d.twin len old :: rest))
    (hpriv : s'.priv d = { s.priv d with status := { old with rxIntr := true } }) :
    WakeInv d s' ([.napiInterrupt d, .hwTxLen d.twin len] ++ rest) := by
  refine ⟨?_, ?_, ?_, fun _ => List.mem_cons_self, fun _ => .inr (.inl ?_)⟩
  · exact List.forall_mem_cons.mpr ⟨trivial, List.forall_mem_cons.mpr
      ⟨rfl, fun pc hpc => h.receives pc (List.mem_cons_of_mem _ hpc)⟩⟩
  · simpa [hpriv] using h.enabled
  · simpa [hpriv] using h.sched_of_disabled
  · simp [hpriv]

/-- Every transition keeps the invariant, when a completing poll completes in time. -/
theorem WakeInv.transition {choice : Choice} (hnapi : cfg.useNapi = true)
    (h : WakeInv d s (pc :: rest)) (htrans : Transition cfg s choice pc s' pcs)
    (hsafe : pc = .pollComplete d → (s.priv d).napi.missed = false →
      (s.priv d).rxQueue = none ∨ Announced d s (pc :: rest)) :
    WakeInv d s' (pcs ++ rest) := by
  have hreceives := h.receives pc List.mem_cons_self
  have hinterrupt : ∀ e, cfg.interrupt e = .napiInterrupt e := fun e => if_pos hnapi
  cases htrans with
  | xmitStore | outOfPool | getTxBuffer | storeLen | writeTx | lockup =>
    cases hreceives
    exact h.of_twin (s.priv_modify_of_ne d.ne_twin _) (by simp) (by simp) not_false
  | tooShort | fill | readTx | pollAgain | pollDone | pollSpent =>
    cases hreceives
    exact h.of_twin rfl (by simp) (by simp) not_false
  | enqueue =>
    cases hreceives
    exact h.of_announcing (by simp) (by simp) (by simp) (by simp) rfl rfl
  | testRxOn | readRx =>
    cases hreceives
    exact h.of_announcing rfl rfl rfl (by simp) rfl rfl
  | testRxOff hoff =>
    cases hreceives
    exact h.testRxOff (by simpa using hoff)
  | writeRx =>
    cases hreceives
    rw [hinterrupt, DevId.twin_twin]
    exact h.writeRx (by simp)
  | noLockup =>
    cases hreceives
    exact h.of_twin rfl (by simp [hinterrupt]) (by simp) not_false
  | @napiInterrupt e _ =>
    rcases eq_or_ne d e with rfl | hne
    · exact h.napiInterrupt (by simp [Devices.freeSkb])
    · exact h.of_twin (Devices.priv_modify_of_ne _ hne _) (by simp) (by simpa using hne.symm)
        not_false
  | release | releaseWake =>
    exact h.of_same (.modify rfl fun _ => ⟨rfl, rfl, rfl, rfl⟩) (by simp) (by simp)
      not_false
  | releaseStopped | releaseNext =>
    refine h.of_twin rfl ?_ (by simp) not_false
    split_ifs <;> simp
  | pollDequeue _ hqueue _ =>
    cases hreceives
    refine h.of_same ?_ (by simp) (by simp) not_false
    constructor <;> simp [hqueue]
  | pollRx =>
    cases hreceives
    exact h.of_same (.modify rfl fun _ => ⟨rfl, rfl, rfl, rfl⟩) (by simp) (by simp)
      not_false
  | pollComplete =>
    cases hreceives
    exact h.pollComplete (hsafe rfl) (by simp)
  | regularIdle | regularReceive | timeoutReadTx | timeoutWriteTx | timeoutErrors
  | timeoutRebuild | timeoutWake | devOpen | devStop | devDisable => cases hreceives

/-- The order of the program counters does not matter. -/
theorem WakeInv.perm (h : WakeInv d s pcs) (hperm : pcs.Perm rest) : WakeInv d s rest :=
  ⟨fun pc hpc => h.receives pc (hperm.mem_iff.mpr hpc), h.enabled, h.sched_of_disabled,
    fun hrx => hperm.mem_iff.mp (h.handler_of_rxIntr hrx),
    fun hqueue => (h.announced hqueue).imp_right fun hann =>
      hann.mono fun _ hpc => hperm.mem_iff.mp hpc⟩

/-- A new operation of the receiving side keeps the invariant. -/
theorem WakeInv.cons (h : WakeInv d s pcs) (hpc : pc.Receives d) : WakeInv d s (pc :: pcs) :=
  ⟨List.forall_mem_cons.mpr ⟨hpc, h.receives⟩, h.enabled, h.sched_of_disabled,
    fun hrx => List.mem_cons_of_mem _ (h.handler_of_rxIntr hrx),
    fun hqueue => (h.announced hqueue).imp_right fun hann =>
      hann.mono fun _ => List.mem_cons_of_mem _⟩

/-- Opened devices satisfy the invariant. -/
theorem Devices.Opened.wakeInv (hnapi : cfg.useNapi = true) (h : s.Opened cfg) :
    WakeInv d s [] := by
  obtain ⟨t, hinit, rfl⟩ := h
  have hpriv : (devOpen cfg (devOpen cfg t .dev0) .dev1).priv d =
      { t.priv d with napi := ⟨true, false, false⟩, queueStopped := false } := by
    cases d <;> simp [devOpen, Devices.modify, hnapi]
  rw [hinit.priv_eq d] at hpriv
  constructor <;> simp [hpriv, Priv.initial]

/-- Every event of the receiving side that meets the condition keeps the invariant. -/
theorem WakeInv.next {t' : System} (hnapi : cfg.useNapi = true) (h : WakeInv d t.devices t.pcs)
    (hreceives : event.Receives d) (hsafe : CompletesInTime d t event)
    (hnext : t.next cfg event = some t') : WakeInv d t'.devices t'.pcs := by
  cases System.move_of_next hnext with
  | @call op hdevices hpcs =>
    have hentry : op.entry.Receives d := by
      cases op <;> first | exact hreceives | exact trivial
    rw [hdevices]
    exact (h.cons hentry).perm hpcs.symm
  | run hget hbefore htrans hafter =>
    refine ((h.perm hbefore).transition hnapi htrans ?_).perm hafter.symm
    rintro rfl hmissed
    refine (hsafe _ hget hmissed).imp_right fun hann => ?_
    exact hann.mono fun _ hpc => hbefore.mem_iff.mp hpc

/-- **Receive wake-ups.** In every run of transmissions to a device and of interrupts
and polls of it, in which each completing poll completes in time, whenever no
operation is in progress and the receive queue is not empty, a poll is scheduled. -/
theorem poll_scheduled_of_completesInTime {cfg : Config} (hnapi : cfg.useNapi = true) (d : DevId)
    {t : System} (hreach : (driverMachine cfg (Devices.Opened cfg)).ReachableUnder
      (fun t event => event.Receives d ∧ CompletesInTime d t event) t)
    (hidle : t.Idle) (hqueue : (t.devices.priv d).rxQueue ≠ none) :
    (t.devices.priv d).napi.sched = true := by
  have hinv : WakeInv d t.devices t.pcs := by
    refine hreach.invariant (fun t => WakeInv d t.devices t.pcs) ?_ ?_
    · rintro ⟨s, threads⟩ ⟨hstart, hthreads⟩
      cases hthreads
      exact hstart.wakeInv hnapi
    · rintro t event t' h ⟨hreceives, hsafe⟩ hnext
      exact h.next hnapi hreceives hsafe hnext
  have hpcs : t.pcs = [] := List.flatMap_eq_nil_iff.mpr hidle
  rw [hpcs] at hinv
  rcases hinv.announced (Option.isSome_iff_ne_none.mpr hqueue) with hsched | hrx | hann
  · exact hsched
  · simpa using hinv.handler_of_rxIntr hrx
  · simp at hann

/-- A frame of device 0 is transmitted to its end. -/
def Event.firstFrame : List Event :=
  .call (.hwTx .dev0 (List.replicate 34 0)) :: List.replicate 12 (.run 0 {})

/-- A check for the steps of transmissions by device 0. -/
def transmits (t : System) : Event → Bool
  | .call (.hwTx e _) => e = .dev0
  | .call _ => false
  | .run i _ => (t.threads[i]?.bind List.head?) ≠ some (.pollComplete .dev1)

/-- Such steps belong to the receiving side of device 1 and complete no poll of it. -/
theorem receives_of_transmits (h : transmits t event = true) :
    event.Receives .dev1 ∧ CompletesInTime .dev1 t event := by
  cases event with
  | call op =>
    refine ⟨?_, trivial⟩
    cases op <;> simp_all [transmits, Event.Receives, Op.Receives, DevId.twin]
  | run i choice =>
    refine ⟨trivial, fun stack hget => ?_⟩
    simp [transmits, hget] at h

/-- After the first frame a poll of device 1 is scheduled. -/
theorem poll_scheduled_after_firstFrame :
    ∃ t, (driverMachine .sample (Devices.Opened .sample)).ReachableUnder
        (fun t event => event.Receives .dev1 ∧ CompletesInTime .dev1 t event) t ∧
      t.Idle ∧ (t.devices.priv .dev1).rxQueue ≠ none ∧
      (t.devices.priv .dev1).napi.sched = true := by
  refine Machine.exists_reachableUnder (s := ⟨.sampleOpened, []⟩)
    ⟨Devices.sampleOpened_opened, rfl⟩ transmits (fun _ _ => receives_of_transmits) Event.firstFrame
    (fun t => t.threads = [[]] ∧ (t.devices.priv .dev1).rxQueue = some 2) ⟨_, rfl, rfl, rfl⟩
    fun t hreach ⟨hthreads, hqueue⟩ => ?_
  have hidle : t.Idle := by simp [System.Idle, hthreads]
  have hne : (t.devices.priv .dev1).rxQueue ≠ none := by simp [hqueue]
  exact ⟨hidle, hne, poll_scheduled_of_completesInTime rfl .dev1 hreach hidle hne⟩

/-- The poll of device 1 receives the frame and finds its queue empty. Before it
completes, a second frame is transmitted to its end. -/
def Event.secondFrame : List Event :=
  Event.call (.poll .dev1 2) :: List.replicate 6 (Event.run 1 {}) ++
    Event.call (.hwTx .dev0 (List.replicate 34 0)) :: List.replicate 9 (Event.run 2 {}) ++
    [Event.run 1 {}]

/-- When the poll completes, the second frame is left on the receive queue without a
scheduled poll, although no operation is in progress any more. -/
theorem second_frame_stranded :
    ∃ t t', (driverMachine .sample (Devices.Opened .sample)).run ⟨.sampleOpened, []⟩
        Event.firstFrame = some t ∧ (t.devices.priv .dev1).napi.sched = true ∧
      (driverMachine .sample (Devices.Opened .sample)).run t Event.secondFrame = some t' ∧
      (∀ event ∈ Event.firstFrame ++ Event.secondFrame, event.Receives .dev1) ∧
      t'.Idle ∧ (t'.devices.priv .dev1).rxQueue ≠ none ∧
      (t'.devices.priv .dev1).napi.sched = false := by
  refine ⟨_, _, rfl, rfl, rfl, ?_, ?_, Option.some_ne_none _, rfl⟩
  · simp [Event.firstFrame, Event.secondFrame, Event.Receives, Op.Receives, DevId.twin]
  · change ∀ stack ∈ ([[], [], []] : List (List Pc)), stack = []
    simp

end Hack.Dummeth
