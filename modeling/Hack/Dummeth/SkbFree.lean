import Hack.Dummeth.Transitions

/-!
# How often a buffer is freed

The stack passes a buffer to `dummeth_xmit`, which parks it in the private data until
the transmission-done branch of an interrupt handler frees it. A buffer is accounted
for while it is being stored, while a handler may still free it, and once it was freed.
In NAPI mode the handler forgets the buffer it frees, so this bounds the number of
times a buffer is freed however operations interleave. The regular handler keeps the
pointer: there a parked buffer is still to be freed only while its transmission is on
its way to setting the transmit bit, or the bit is set, and a timeout that sets the bit
at another time frees the buffer again.
-/

namespace Hack.Dummeth

/-- The buffers the stack passes to `dummeth_xmit`. -/
def passedSkbs (_ : System) : Event → List SkbId
  | .call (.xmit _ skb _) => [skb]
  | _ => []

/-- The condition on an event: in regular mode operations run one at a time, and a
timeout comes only while the transmit bit is set or no buffer was passed yet. -/
def TimesOutInTime (cfg : Config) (t : System) : Event → Prop
  | .call op => op.InMode cfg ∧ (cfg.useNapi = false → t.Idle ∧ ∀ d, op = .txTimeout d →
      (t.devices.priv d).status.txIntr = true ∨ (t.devices.priv d).skb = none)
  | .run _ _ => True

/-- The buffer a transmission is about to store. -/
def Pc.storing : Pc → List SkbId
  | .xmitStore _ skb _ => [skb]
  | _ => []

/-- No buffer was freed, may still be freed by a handler, or is being stored more often
than it was passed. -/
def Accounted (freed : List SkbId) (owed : DevId → List SkbId) (storing passed : List SkbId) :
    Prop :=
  ∀ k, freed.count k + ((owed .dev0).count k + (owed .dev1).count k) + storing.count k ≤
    passed.count k

variable {cfg : Config} {s s' : Devices} {choice : Choice} {pc : Pc} {pcs rest : List Pc}
  {freed storing passed : List SkbId} {owed owed' : DevId → List SkbId} {d : DevId} {t t' : System}
  {event : Event}

/-- A buffer that is stored replaces the one parked before. -/
theorem Accounted.store {skb : SkbId} (h : Accounted freed owed (skb :: storing) passed)
    (hself : owed' d = [skb]) (hother : ∀ e, e ≠ d → owed' e = owed e) :
    Accounted freed owed' storing passed := by
  intro k
  have hk := h k
  simp only [List.count_cons] at hk
  cases d with
  | dev0 =>
    rw [hself, hother .dev1 (by simp), List.count_singleton]
    omega
  | dev1 =>
    rw [hself, hother .dev0 (by simp), List.count_singleton]
    omega

/-- Parked buffers may be forgotten. -/
theorem Accounted.mono (h : Accounted freed owed storing passed)
    (howed : ∀ d, owed' d = owed d ∨ owed' d = []) : Accounted freed owed' storing passed := by
  intro k
  have hk := h k
  have hle : ∀ d, (owed' d).count k ≤ (owed d).count k := fun d => by
    rcases howed d with h | h <;> simp [h]
  have h0 := hle .dev0
  have h1 := hle .dev1
  omega

/-- An interrupt handler that frees the parked buffer forgets it, and one that frees
nothing may do so. -/
theorem Accounted.handle {tx : Bool} {skbs : List SkbId}
    (h : Accounted freed owed storing passed) (hfree : tx = true → skbs = owed d ∧ owed' d = [])
    (hidle : tx = false → owed' d = owed d ∨ owed' d = [])
    (hother : ∀ e, e ≠ d → owed' e = owed e) :
    Accounted (freed ++ if tx then skbs else []) owed' storing passed := by
  cases tx with
  | false =>
    rw [if_neg (by simp), List.append_nil]
    refine h.mono fun e => ?_
    rcases eq_or_ne e d with rfl | he
    · exact hidle rfl
    · exact .inl (hother e he)
  | true =>
    obtain ⟨rfl, hself⟩ := hfree rfl
    intro k
    have hk := h k
    rw [if_pos rfl, List.count_append]
    cases d with
    | dev0 =>
      rw [hself, hother .dev1 (by simp), List.count_nil]
      omega
    | dev1 =>
      rw [hself, hother .dev0 (by simp), List.count_nil]
      omega

/-- Neither the parked nor the freed buffers changed. -/
structure SameSkbs (s s' : Devices) : Prop where
  freed_eq : s'.freedSkbs = s.freedSkbs
  skb_eq : ∀ d, (s'.priv d).skb = (s.priv d).skb

/-- Only storing a buffer and the interrupt handlers change parked and freed buffers. -/
theorem Transition.sameSkbs (htrans : Transition cfg s choice pc s' pcs)
    (hstoring : pc.storing = []) (hregular : ∀ d, pc ≠ .regularInterrupt d)
    (hnapi : ∀ d, pc ≠ .napiInterrupt d) : SameSkbs s s' := by
  cases htrans with
  | xmitStore => cases hstoring
  | regularIdle | regularReceive => exact absurd rfl (hregular _)
  | napiInterrupt => exact absurd rfl (hnapi _)
  | tooShort | fill | testRxOn | testRxOff | readRx | readTx | noLockup | releaseStopped
  | releaseNext | pollAgain | pollDone | pollSpent | timeoutReadTx =>
    exact ⟨rfl, fun _ => rfl⟩
  | timeoutRebuild _ hfree hsetup =>
    obtain ⟨heap, ppool, rfl, -⟩ := rebuild_eq hfree hsetup
    exact ⟨rfl, Devices.get_modify Priv.skb _ rfl⟩
  | _ => exact ⟨rfl, Devices.get_modify Priv.skb _ rfl⟩

/-- Only a call of the stack stores a buffer. -/
theorem Transition.storing_eq (htrans : Transition cfg s choice pc s' pcs) :
    pcs.flatMap Pc.storing = [] := by
  have hinterrupt : ∀ d, (cfg.interrupt d).storing = [] := fun d => by
    rcases cfg.interrupt_cases d with ⟨-, h⟩ | ⟨-, h⟩ <;> rw [h] <;> rfl
  cases htrans with
  | writeRx | timeoutWriteTx | noLockup =>
    rw [List.flatMap_cons, hinterrupt]
    rfl
  | releaseStopped | releaseNext | devStop => split_ifs <;> rfl
  | _ => rfl

/-- In NAPI mode parked buffers are accounted for, over all program counters. -/
def NapiSkbs (s : Devices) (pcs : List Pc) (passed : List SkbId) : Prop :=
  Accounted s.freedSkbs (fun d => (s.priv d).skb.toList) (pcs.flatMap Pc.storing) passed

/-- Every transition keeps the invariant of NAPI mode. -/
theorem NapiSkbs.transition (h : NapiSkbs s (pc :: rest) passed)
    (htrans : Transition cfg s choice pc s' pcs) (hregular : ∀ d, pc ≠ .regularInterrupt d) :
    NapiSkbs s' (pcs ++ rest) passed := by
  unfold NapiSkbs at h ⊢
  rw [List.flatMap_append, htrans.storing_eq, List.nil_append]
  rw [List.flatMap_cons] at h
  by_cases hstoring : pc.storing = []
  · rw [hstoring, List.nil_append] at h
    by_cases hnapi : ∀ d, pc ≠ .napiInterrupt d
    · obtain ⟨hfreed, hskb⟩ := htrans.sameSkbs hstoring hregular hnapi
      rw [hfreed]
      exact h.mono fun d => .inl (by rw [hskb])
    · obtain ⟨d, rfl⟩ := not_forall_not.mp hnapi
      cases htrans with
      | napiInterrupt =>
        refine h.handle (d := d) (fun htx => ⟨rfl, ?_⟩) (fun htx => .inl ?_) fun e he => ?_
        · simp [htx]
        · simp [htx]
        · rw [Devices.priv_modify_of_ne _ he, Devices.priv_freeSkb]
  · cases htrans with
    | @xmitStore d skb frame =>
      refine h.store (d := d) (by simp) fun e he => ?_
      rw [s.priv_modify_of_ne he]
    | _ => exact absurd rfl hstoring

/-- A transmission that has stored its buffer and not yet set the transmit bit. -/
def Pc.sends (d : DevId) : Pc → Bool
  | .hwTx e _ => e = d
  | .hwTxFill e _ _ => e = d
  | .hwTxEnqueue e _ _ => e = d
  | .hwTxTestRx e _ => e = d
  | .hwTxReadRx e _ => e = d
  | .hwTxWriteRx e _ _ => e = d
  | .hwTxLen e _ => e = d
  | .hwTxReadTx e => e = d
  | .hwTxWriteTx e _ => e = d
  | _ => false

/-- The parked buffer of a device is still to be freed. -/
def armed (s : Devices) (pcs : List Pc) (d : DevId) : Bool :=
  (s.priv d).status.txIntr || pcs.any (Pc.sends d)

/-- The buffers the regular handler may still free. -/
def owedSkbs (s : Devices) (pcs : List Pc) (d : DevId) : List SkbId :=
  if armed s pcs d then (s.priv d).skb.toList else []

/-- The functions that are called by others: the interrupt handlers and
`dummeth_release_buffer`. -/
def Pc.Called : Pc → Prop
  | .regularInterrupt _ => True
  | .napiInterrupt _ => True
  | .release _ => True
  | .releaseStopped _ => True
  | .releaseNext _ => True
  | .releaseWake _ => True
  | _ => False

/-- Where a called function returns to. -/
def Pc.Returns : Pc → Prop
  | .hwTxLen _ _ => True
  | .pollTest _ _ _ => True
  | .timeoutErrors _ => True
  | _ => False

/-- The counters of one operation: calls are nested at most once, and a transmission
raises the interrupt of the other device before it goes on. -/
def Stacked : List Pc → Prop
  | [] => True
  | [_] => True
  | [pc, ret] => pc.Called ∧ ret.Returns ∧ ∀ d, pc = .regularInterrupt d → ret.sends d = false
  | _ => False

/-- What an operation that runs alone knows of the status it has read, and that a timeout
came in time. -/
def Pc.Fresh (s : Devices) : Pc → Prop
  | .hwTxWriteRx d _ old => old.txIntr = (s.priv d.twin).status.txIntr
  | .timeoutReadTx d => (s.priv d).status.txIntr = true ∨ (s.priv d).skb = none
  | .timeoutWriteTx d _ => (s.priv d).status.txIntr = true ∨ (s.priv d).skb = none
  | _ => True

/-- The invariant of regular mode, over the program counters of the operation in
progress. -/
structure RegularSkbs (s : Devices) (pcs : List Pc) (passed : List SkbId) : Prop where
  /-- Calls are nested at most once. -/
  stacked : Stacked pcs
  /-- What the operation has read is up to date. -/
  fresh : ∀ pc ∈ pcs, pc.Fresh s
  /-- Parked buffers that are still to be freed are accounted for. -/
  accounted : Accounted s.freedSkbs (owedSkbs s pcs) (pcs.flatMap Pc.storing) passed

/-- What is below a program counter on its stack. -/
theorem Stacked.cases (h : Stacked (pc :: rest)) :
    rest = [] ∨ ∃ ret, rest = [ret] ∧ pc.Called ∧ ret.Returns ∧
      ∀ d, pc = .regularInterrupt d → ret.sends d = false := by
  match rest, h with
  | [], _ => exact .inl rfl
  | [ret], h => exact .inr ⟨ret, rfl, h⟩

/-- Every transition keeps the shape of the stack. -/
theorem Stacked.transition (h : Stacked (pc :: rest))
    (htrans : Transition cfg s choice pc s' pcs) : Stacked (pcs ++ rest) := by
  have hinterrupt : ∀ d, (cfg.interrupt d).Called ∧
      ∀ e, cfg.interrupt d = .regularInterrupt e → e = d := fun d => by
    rcases cfg.interrupt_cases d with ⟨-, h⟩ | ⟨-, h⟩ <;> simp [h, Pc.Called]
  rcases h.cases with rfl | ⟨ret, rfl, hcalled, hret, -⟩
  · cases htrans with
    | @writeRx d len old =>
      refine ⟨(hinterrupt _).1, trivial, fun e he => ?_⟩
      rw [(hinterrupt _).2 e he]
      simpa [Pc.sends] using d.ne_twin
    | timeoutWriteTx => exact ⟨(hinterrupt _).1, trivial, fun e _ => rfl⟩
    | pollRx => exact ⟨trivial, trivial, by simp⟩
    | releaseStopped | releaseNext | devStop => split_ifs <;> trivial
    | _ => trivial
  · cases htrans with
    | regularIdle | napiInterrupt | releaseWake => trivial
    | regularReceive | release => exact ⟨trivial, hret, by simp⟩
    | releaseStopped | releaseNext =>
      split_ifs
      · exact ⟨trivial, hret, by simp⟩
      · trivial
    | _ => exact hcalled.elim

/-- A step that stores no buffer goes on with a transmission only as one. -/
theorem Transition.sends_of_mem (htrans : Transition cfg s choice pc s' pcs)
    (hstoring : pc.storing = []) : ∀ pc' ∈ pcs, pc'.sends d = true → pc.sends d = true := by
  have hinterrupt : ∀ e, (cfg.interrupt e).sends d = true → pc.sends d = true := fun e => by
    rcases cfg.interrupt_cases e with ⟨-, h⟩ | ⟨-, h⟩ <;> simp [h, Pc.sends]
  cases htrans with
  | xmitStore => cases hstoring
  | writeRx | timeoutWriteTx =>
    exact List.forall_mem_cons.mpr ⟨hinterrupt _, by simp [Pc.sends]⟩
  | noLockup => exact List.forall_mem_singleton.mpr (hinterrupt _)
  | releaseStopped | releaseNext | devStop => split_ifs <;> simp [Pc.sends]
  | pollRx => simp [Pc.sends]
  | _ =>
    first
      | exact List.forall_mem_singleton.mpr id
      | exact List.forall_mem_nil _
      | exact List.forall_mem_singleton.mpr nofun

/-- The transmit bit is set only by transmissions, and by timeouts that come in time. -/
theorem Transition.txIntr_cases (htrans : Transition cfg s choice pc s' pcs) (hfresh : pc.Fresh s)
    (htx : (s'.priv d).status.txIntr = true) :
    (s.priv d).status.txIntr = true ∨ pc.sends d = true ∨ (s.priv d).skb = none := by
  have hsame : ((s'.priv d).status = (s.priv d).status) →
      (s.priv d).status.txIntr = true ∨ pc.sends d = true ∨ (s.priv d).skb = none :=
    fun h => .inl (h ▸ htx)
  cases htrans with
  | tooShort | fill | testRxOn | testRxOff | readRx | readTx | noLockup | releaseStopped
  | releaseNext | pollAgain | pollDone | pollSpent | timeoutReadTx => exact hsame rfl
  | @writeRx e len old =>
    rcases eq_or_ne d e.twin with rfl | hne
    · have hold : old.txIntr = (s.priv e.twin).status.txIntr := hfresh
      exact .inl (hold ▸ by simpa using htx)
    · exact hsame (by rw [s.priv_modify_of_ne hne])
  | @writeTx e old =>
    rcases eq_or_ne d e with rfl | hne
    · exact .inr (.inl (by simp [Pc.sends]))
    · exact hsame (by rw [s.priv_modify_of_ne hne])
  | @timeoutWriteTx e old =>
    rcases eq_or_ne d e with rfl | hne
    · exact hfresh.imp_right .inr
    · exact hsame (by rw [s.priv_modify_of_ne hne])
  | @regularIdle e | @regularReceive e | @napiInterrupt e =>
    rcases eq_or_ne d e with rfl | hne
    · simp at htx
    · exact hsame (by rw [Devices.priv_modify_of_ne _ hne]; rfl)
  | timeoutRebuild _ hfree hsetup =>
    obtain ⟨heap, ppool, rfl, -⟩ := rebuild_eq hfree hsetup
    exact hsame (Devices.get_modify Priv.status _ rfl d)
  | _ => exact hsame (Devices.get_modify Priv.status _ rfl d)

/-- A step other than storing a buffer arms no buffer that is still to be freed. -/
theorem RegularSkbs.armed_of_armed (h : RegularSkbs s (pc :: rest) passed)
    (htrans : Transition cfg s choice pc s' pcs) (hstoring : pc.storing = [])
    (harmed : armed s' (pcs ++ rest) d = true) :
    armed s (pc :: rest) d = true ∨ (s.priv d).skb = none := by
  simp only [armed, Bool.or_eq_true, List.any_eq_true, List.any_cons] at harmed ⊢
  rcases harmed with htx | ⟨pc', hpc', hsends⟩
  · have := htrans.txIntr_cases (h.fresh pc List.mem_cons_self) htx
    tauto
  · rcases List.mem_append.mp hpc' with hpc' | hpc'
    · exact .inl (.inr (.inl (htrans.sends_of_mem hstoring pc' hpc' hsends)))
    · exact .inl (.inr (.inr ⟨pc', hpc', hsends⟩))

/-- An operation that waits for a call to return relies on nothing it has read. -/
theorem Pc.Returns.fresh (h : pc.Returns) (s : Devices) : pc.Fresh s := by
  cases pc with
  | hwTxLen | pollTest | timeoutErrors => trivial
  | _ => exact h.elim

/-- What the operation has read stays up to date while it runs alone. -/
theorem RegularSkbs.fresh_transition (h : RegularSkbs s (pc :: rest) passed)
    (htrans : Transition cfg s choice pc s' pcs) : ∀ pc' ∈ pcs ++ rest, pc'.Fresh s' := by
  have hrest : ∀ pc' ∈ rest, pc'.Fresh s' := by
    rcases h.stacked.cases with rfl | ⟨ret, rfl, -, hret, -⟩
    · simp
    · simpa using hret.fresh s'
  have hpc := h.fresh pc List.mem_cons_self
  have hinterrupt : ∀ d, (cfg.interrupt d).Fresh s' := fun d => by
    rcases cfg.interrupt_cases d with ⟨-, h⟩ | ⟨-, h⟩ <;> simp [h, Pc.Fresh]
  refine List.forall_mem_append.mpr ⟨?_, hrest⟩
  cases htrans with
  | writeRx | timeoutWriteTx =>
    exact List.forall_mem_cons.mpr ⟨hinterrupt _, by simp [Pc.Fresh]⟩
  | noLockup => exact List.forall_mem_singleton.mpr (hinterrupt _)
  | releaseStopped | releaseNext | devStop => split_ifs <;> simp [Pc.Fresh]
  | timeoutReadTx => exact List.forall_mem_singleton.mpr hpc
  | readRx => exact List.forall_mem_singleton.mpr rfl
  | pollRx => simp [Pc.Fresh]
  | _ => first | exact List.forall_mem_singleton.mpr trivial | exact List.forall_mem_nil _

/-- The regular handler frees the parked buffer when the transmit bit is set, and clears
the status word. -/
theorem Transition.regularInterrupt_spec
    (htrans : Transition cfg s choice (.regularInterrupt d) s' pcs) :
    s'.freedSkbs = s.freedSkbs ++ (if (s.priv d).status.txIntr then (s.priv d).skb.toList else []) ∧
    (s'.priv d).status.txIntr = false ∧ ∀ e, e ≠ d → s'.priv e = s.priv e := by
  cases htrans with
  | regularIdle | regularReceive =>
    exact ⟨rfl, by simp, fun e he => Devices.priv_modify_of_ne _ he _⟩

/-- The other device is armed as before when the regular handler ran. -/
theorem RegularSkbs.regularInterrupt (h : RegularSkbs s (.regularInterrupt d :: rest) passed)
    (htrans : Transition cfg s choice (.regularInterrupt d) s' pcs) :
    Accounted s'.freedSkbs (owedSkbs s' (pcs ++ rest)) (rest.flatMap Pc.storing) passed := by
  obtain ⟨hfreed, hstatus, hother⟩ := htrans.regularInterrupt_spec
  have hpcs : ∀ e, pcs.any (Pc.sends e) = false := fun e => by
    refine List.any_eq_false.mpr fun pc' hpc' hsends => ?_
    cases htrans.sends_of_mem rfl pc' hpc' hsends
  -- The operation the handler returns to does not transmit on its device.
  have hrest : rest.any (Pc.sends d) = false := by
    rcases h.stacked.cases with rfl | ⟨ret, rfl, -, -, hret⟩
    · rfl
    · simp [hret d rfl]
  have haccounted : Accounted s.freedSkbs (owedSkbs s (.regularInterrupt d :: rest))
      (rest.flatMap Pc.storing) passed := h.accounted
  rw [hfreed]
  have hself : owedSkbs s' (pcs ++ rest) d = [] := by simp [owedSkbs, armed, hstatus, hpcs, hrest]
  refine haccounted.handle (d := d) (fun htx => ⟨?_, hself⟩) (fun _ => .inr hself) fun e he => ?_
  · simp [owedSkbs, armed, htx]
  · simp [owedSkbs, armed, hother e he, hpcs, Pc.sends]

/-- Every transition keeps the invariant of regular mode. -/
theorem RegularSkbs.transition (h : RegularSkbs s (pc :: rest) passed)
    (htrans : Transition cfg s choice pc s' pcs) (hnapi : ∀ d, pc ≠ .napiInterrupt d) :
    RegularSkbs s' (pcs ++ rest) passed := by
  refine ⟨h.stacked.transition htrans, h.fresh_transition htrans, ?_⟩
  have haccounted := h.accounted
  rw [List.flatMap_append, htrans.storing_eq, List.nil_append]
  rw [List.flatMap_cons] at haccounted
  by_cases hstoring : pc.storing = []
  · by_cases hregular : ∀ d, pc ≠ .regularInterrupt d
    · obtain ⟨hfreed, hskb⟩ := htrans.sameSkbs hstoring hregular hnapi
      rw [hstoring, List.nil_append] at haccounted
      rw [hfreed]
      refine haccounted.mono fun d => ?_
      cases harmed : armed s' (pcs ++ rest) d with
      | false => exact .inr (by simp [owedSkbs, harmed])
      | true =>
        rcases h.armed_of_armed htrans hstoring harmed with hbefore | hnone
        · exact .inl (by simp [owedSkbs, harmed, hbefore, hskb])
        · exact .inr (by simp [owedSkbs, hskb, hnone])
    · obtain ⟨d, rfl⟩ := not_forall_not.mp hregular
      exact h.regularInterrupt htrans
  · cases htrans with
    | @xmitStore d skb frame =>
      obtain rfl : rest = [] := by
        rcases h.stacked.cases with rfl | ⟨ret, rfl, hcalled, -⟩
        · rfl
        · exact hcalled.elim
      refine haccounted.store (d := d) (by simp [owedSkbs, armed, Pc.sends]) fun e he => ?_
      simp [owedSkbs, armed, Pc.sends, he.symm, Devices.priv_modify_of_ne _ he]
    | _ => exact absurd rfl hstoring

/-- The order of the counters does not matter in NAPI mode. -/
theorem NapiSkbs.perm (h : NapiSkbs s pcs passed) (hperm : pcs.Perm rest) :
    NapiSkbs s rest passed := fun k => by
  have hcount := (hperm.flatMap_right Pc.storing).count_eq k
  have hk := h k
  omega

/-- A call accounts for the buffer it passes. -/
theorem Accounted.call {op : Op} (h : Accounted freed owed storing passed)
    (howed : ∀ d, owed' d = owed d) :
    Accounted freed owed' (op.entry.storing ++ storing) (passed ++ passedSkbs t (.call op)) := by
  have hstoring : op.entry.storing = passedSkbs t (.call op) := by cases op <;> rfl
  intro k
  have hk := h k
  rw [hstoring, howed, howed, List.count_append, List.count_append]
  omega

/-- A loaded module has no buffers. -/
theorem Devices.Initialised.accounted (h : s.Initialised cfg)
    (howed : ∀ d, owed d = (s.priv d).skb.toList ∨ owed d = []) :
    Accounted s.freedSkbs owed [] [] := by
  have hskb : ∀ d, (s.priv d).skb.toList = [] := fun d => by rw [h.priv_eq d]; rfl
  have hnone : ∀ d, owed d = [] := fun d => (howed d).elim (fun h => h.trans (hskb d)) id
  simp [Accounted, h.logs.1, hnone]

/-- In NAPI mode every step keeps the invariant, however operations interleave. -/
theorem NapiSkbs.next (hmode : cfg.useNapi = true) (hin : ∀ pc ∈ t.pcs, pc.InMode cfg)
    (h : NapiSkbs t.devices t.pcs passed) (hcond : TimesOutInTime cfg t event)
    (hnext : t.next cfg event = some t') : (∀ pc ∈ t'.pcs, pc.InMode cfg) ∧
      NapiSkbs t'.devices t'.pcs (passed ++ passedSkbs t event) := by
  cases System.move_of_next hnext with
  | @call op hdevices hpcs =>
    refine ⟨fun pc hpc => ?_, ?_⟩
    · rcases List.mem_cons.mp (hpcs.mem_iff.mp hpc) with rfl | hpc
      · exact hcond.1.entry
      · exact hin pc hpc
    · have hcall : NapiSkbs t'.devices (op.entry :: t.pcs) (passed ++ passedSkbs t (.call op)) := by
        rw [hdevices]
        exact Accounted.call h fun _ => rfl
      exact hcall.perm hpcs.symm
  | @run i choice pc stack rest pcs _ hbefore htrans hafter =>
    have hin' : ∀ pc' ∈ pc :: rest, pc'.InMode cfg := fun pc' hpc' =>
      hin pc' (hbefore.mem_iff.mpr hpc')
    refine ⟨fun pc' hpc' => htrans.inMode hin' pc' (hafter.mem_iff.mp hpc'), ?_⟩
    rw [show passed ++ passedSkbs t (.run i choice) = passed from List.append_nil passed]
    refine ((h.perm hbefore).transition htrans fun d heq => ?_).perm hafter.symm
    have hpc := hin' pc List.mem_cons_self
    simp [heq, Pc.InMode, hmode] at hpc

/-- In NAPI mode the invariant holds in every run. -/
theorem NapiSkbs.of_reachable (hmode : cfg.useNapi = true) {t : System × List SkbId}
    (hreach : ((driverMachine cfg (Devices.Initialised cfg)).observed passedSkbs).ReachableUnder
      (fun t event => TimesOutInTime cfg t.1 event) t) :
    (∀ pc ∈ t.1.pcs, pc.InMode cfg) ∧ NapiSkbs t.1.devices t.1.pcs t.2 := by
  refine hreach.observed_invariant
    (fun t log => (∀ pc ∈ t.pcs, pc.InMode cfg) ∧ NapiSkbs t.devices t.pcs log) ?_ ?_
  · rintro ⟨s, threads⟩ ⟨hstart, hthreads⟩
    cases hthreads
    exact ⟨by simp [System.pcs], hstart.accounted fun d => .inl rfl⟩
  · rintro t log event t' ⟨hin, h⟩ hcond hnext
    exact h.next hmode hin hcond hnext

/-- In regular mode every step keeps the invariant while operations run one at a time and timeouts
come in time. -/
theorem RegularSkbs.next (hmode : cfg.useNapi = false) (hsolo : t.Solo)
    (hin : ∀ pc ∈ t.pcs, pc.InMode cfg) (h : RegularSkbs t.devices t.pcs passed)
    (hcond : TimesOutInTime cfg t event) (hnext : t.next cfg event = some t') :
    t'.Solo ∧ (∀ pc ∈ t'.pcs, pc.InMode cfg) ∧
      RegularSkbs t'.devices t'.pcs (passed ++ passedSkbs t event) := by
  have halone : event.Alone t := by
    cases event with
    | call op => exact (hcond.2 hmode).1
    | run i choice => trivial
  obtain ⟨hsolo', hmove⟩ := hsolo.next halone hnext
  refine ⟨hsolo', ?_⟩
  cases hmove with
  | @call op hpcs hdevices hpcs' =>
    rw [hpcs] at h
    rw [hpcs', hdevices]
    refine ⟨by simpa using hcond.1.entry, trivial, ?_, ?_⟩
    · refine List.forall_mem_singleton.mpr ?_
      cases op with
      | txTimeout d => exact (hcond.2 hmode).2 d rfl
      | _ => trivial
    · have hsends : ∀ d, op.entry.sends d = false := fun d => by
        cases op <;> first | exact hcond.1.elim | rfl
      rw [List.flatMap_singleton, ← List.append_nil op.entry.storing]
      exact h.accounted.call fun d => by simp [owedSkbs, armed, hsends]
  | @run i choice pc stack pcs hpcs htrans hpcs' =>
    rw [hpcs] at h hin
    rw [hpcs', show passed ++ passedSkbs t (.run i choice) = passed from List.append_nil passed]
    refine ⟨htrans.inMode hin, h.transition htrans fun d heq => ?_⟩
    have hpc := hin pc List.mem_cons_self
    simp [heq, Pc.InMode, hmode] at hpc

/-- In regular mode the invariant holds in every run whose steps all meet the condition. -/
theorem RegularSkbs.of_reachable (hmode : cfg.useNapi = false) {t : System × List SkbId}
    (hreach : ((driverMachine cfg (Devices.Initialised cfg)).observed passedSkbs).ReachableUnder
      (fun t event => TimesOutInTime cfg t.1 event) t) :
    t.1.Solo ∧ (∀ pc ∈ t.1.pcs, pc.InMode cfg) ∧ RegularSkbs t.1.devices t.1.pcs t.2 := by
  refine hreach.observed_invariant (fun t log => t.Solo ∧ (∀ pc ∈ t.pcs, pc.InMode cfg) ∧
    RegularSkbs t.devices t.pcs log) ?_ ?_
  · rintro ⟨s, threads⟩ ⟨hstart, hthreads⟩
    cases hthreads
    refine ⟨by simp [System.Solo], by simp [System.pcs], trivial, by simp [System.pcs], ?_⟩
    refine hstart.accounted fun d => ?_
    unfold owedSkbs
    split_ifs
    · exact .inl rfl
    · exact .inr rfl
  · rintro t log event t' ⟨hsolo, hin, h⟩ hcond hnext
    exact h.next hmode hsolo hin hcond hnext

/-- **A buffer is freed at most once.** In every run in which, in regular mode,
operations run one at a time and a timeout comes only while the transmit bit is set, a
buffer is passed to `dev_kfree_skb` at most as often as it was passed to `dummeth_xmit`. -/
theorem skb_freed_at_most_once {t : System × List SkbId}
    (hreach : ((driverMachine cfg (Devices.Initialised cfg)).observed passedSkbs).ReachableUnder
      (fun t event => TimesOutInTime cfg t.1 event) t) (skb : SkbId) :
    t.1.devices.freedSkbs.count skb ≤ t.2.count skb := by
  cases hmode : cfg.useNapi with
  | true =>
    have haccounted := (NapiSkbs.of_reachable hmode hreach).2 skb
    omega
  | false =>
    have haccounted := (RegularSkbs.of_reachable hmode hreach).2.2.accounted skb
    omega

/-- The sample in regular mode, with a number for its simulated lockups. -/
def Config.sampleRegular (lockup : ℤ) : Config := { Config.sample with useNapi := false, lockup }

/-- The sample is also loaded in regular mode. -/
theorem Devices.sample_initialised_regular (lockup : ℤ) :
    Devices.sample.Initialised (.sampleRegular lockup) := ⟨sampleKmalloc, rfl⟩

/-- A check for transmissions and for timeouts that come in time, one at a time. -/
def timesOutInTime (t : System) : Event → Bool
  | .call (.xmit _ _ _) => decide t.Idle
  | .call (.txTimeout d) => decide t.Idle && (t.devices.priv d).status.txIntr
  | .call _ => false
  | .run _ _ => true

/-- Such events meet the condition. -/
theorem timesOutInTime_of_check (h : timesOutInTime t event = true) :
    TimesOutInTime cfg t event := by
  cases event with
  | call op =>
    cases op with
    | xmit d skb frame => exact ⟨trivial, fun _ => ⟨by simpa [timesOutInTime] using h, by simp⟩⟩
    | txTimeout d =>
      simp only [timesOutInTime, Bool.and_eq_true, decide_eq_true_eq] at h
      refine ⟨trivial, fun _ => ⟨h.1, fun e he => ?_⟩⟩
      cases he
      exact .inl h.2
    | _ => simp [timesOutInTime] at h
  | run i choice => trivial

/-- A transmission whose interrupt is lost, and the timeout that makes up for it. -/
def Event.lockupRecovered : List Event :=
  Event.call (.xmit .dev0 7 []) :: List.replicate 14 (Event.run 0 {}) ++
  Event.call (.txTimeout .dev0) :: List.replicate 3 (Event.run 1 {})

/-- The timeout frees the buffer of the transmission, once. -/
theorem skb_freed_after_lockup :
    ∃ t, ((driverMachine (.sampleRegular 1) (Devices.Initialised (.sampleRegular 1))).observed
        passedSkbs).ReachableUnder (fun t event => TimesOutInTime (.sampleRegular 1) t.1 event) t ∧
      t.2 = [7] ∧ t.1.devices.freedSkbs = [7] ∧
      t.1.devices.freedSkbs.count 7 ≤ t.2.count 7 := by
  refine Machine.exists_reachableUnder (s := (⟨.sample, []⟩, []))
    ⟨⟨Devices.sample_initialised_regular 1, rfl⟩, rfl⟩ (fun t event => timesOutInTime t.1 event)
    (fun _ _ => timesOutInTime_of_check) Event.lockupRecovered
    (fun t => t.2 = [7] ∧ t.1.devices.freedSkbs = [7]) ⟨_, rfl, rfl, rfl⟩ ?_
  exact fun t hreach ⟨hpassed, hfreed⟩ => ⟨hpassed, hfreed, skb_freed_at_most_once hreach 7⟩

/-- A transmission that was completed, and a timeout after it. -/
def Event.timeoutAfterDone : List Event :=
  Event.call (.xmit .dev0 7 []) :: List.replicate 15 (Event.run 0 {}) ++
  Event.call (.txTimeout .dev0) :: List.replicate 4 (Event.run 1 {}) ++
  [Event.run 1 { kmalloc := fun i => some (i + 5) }, Event.run 1 {}]

/-- In regular mode the timeout frees the buffer again that the handler has freed. -/
theorem skb_freed_twice :
    ∃ t, ((driverMachine (.sampleRegular 0) (Devices.Initialised (.sampleRegular 0))).observed
        passedSkbs).ReachableUnder (fun t event => event.Alone t.1) t ∧
      t.1.Idle ∧ t.2 = [7] ∧ t.1.devices.freedSkbs = [7, 7] := by
  refine Machine.exists_reachableUnder (s := (⟨.sample, []⟩, []))
    ⟨⟨Devices.sample_initialised_regular 0, rfl⟩, rfl⟩ (fun t event => decide (event.Alone t.1))
    (fun _ _ => of_decide_eq_true) Event.timeoutAfterDone
    (fun t => t.1.threads = [[], []] ∧ t.2 = [7] ∧ t.1.devices.freedSkbs = [7, 7])
    ⟨_, rfl, rfl, rfl, rfl⟩ fun t _ ⟨hthreads, hskbs⟩ => ⟨?_, hskbs⟩
  simp [System.Idle, hthreads]

end Hack.Dummeth
