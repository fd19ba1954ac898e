import Mathlib.Data.List.Basic

/-!
# Machines, runs, and conditional reachability

The programs of this repository are driven by schedulers, kernels, and clients
whose choices they do not control. A machine puts every such choice into the
label of a step, so the step function itself is a partial function and a finite
run is a list of labels. Reachability takes a condition on the steps as a
parameter: one rule then proves invariants of all runs and of the runs whose
steps avoid a known defect. State and label types are arbitrary.
-/

namespace Hack

/-- A machine given by its starting states and its labelled partial steps. -/
structure Machine (State Label : Type*) where
  /-- The states in which a run may start. -/
  start : State → Prop
  /-- The state after a labelled step, `none` when the step cannot be taken. -/
  next : State → Label → Option State

namespace Machine

variable {State Label : Type*}

/-- The states reached from a start by steps that each meet a condition on the
label and on the state before the step. -/
inductive ReachableUnder (m : Machine State Label) (condition : State → Label → Prop) :
    State → Prop
  | start {s : State} : m.start s → ReachableUnder m condition s
  | next {s s' : State} {label : Label} : ReachableUnder m condition s →
      condition s label → m.next s label = some s' → ReachableUnder m condition s'

/-- The states reached from a start by any steps. -/
def Reachable (m : Machine State Label) : State → Prop := m.ReachableUnder fun _ _ => True

/-- The state after a list of labelled steps, `none` as soon as one is impossible. -/
def run (m : Machine State Label) : State → List Label → Option State
  | s, [] => some s
  | s, label :: labels => (m.next s label).bind fun s' => m.run s' labels

/-- A condition on steps holds at each of a list of labelled steps, as far as they can be
taken. -/
def Along (m : Machine State Label) (condition : State → Label → Prop) : State → List Label → Prop
  | _, [] => True
  | s, label :: labels =>
    condition s label ∧ ∀ s', m.next s label = some s' → m.Along condition s' labels

/-- The machine that takes only the steps passing a check. -/
def guarded (m : Machine State Label) (check : State → Label → Bool) : Machine State Label where
  start := m.start
  next s label := if check s label then m.next s label else none

/-- The machine that also keeps a log of what is observed of its steps. -/
def observed {Obs : Type*} (m : Machine State Label) (observe : State → Label → List Obs) :
    Machine (State × List Obs) Label where
  start s := m.start s.1 ∧ s.2 = []
  next s label := (m.next s.1 label).map fun s' => (s', s.2 ++ observe s.1 label)

variable {m : Machine State Label} {condition : State → Label → Prop} {s s' : State}
  {labels : List Label} {label : Label} {Obs : Type*}

/-- The invariant rule: what holds at every start and is kept by every step
meeting the condition holds in every state reached under that condition. -/
theorem ReachableUnder.invariant (Inv : State → Prop) (hstart : ∀ s, m.start s → Inv s)
    (hstep : ∀ s label s', Inv s → condition s label → m.next s label = some s' → Inv s')
    (hreach : m.ReachableUnder condition s) : Inv s := by
  induction hreach with
  | start hs => exact hstart _ hs
  | next _ hcond hnext ih => exact hstep _ _ _ ih hcond hnext

/-- Reachability under a condition is reachability. -/
theorem ReachableUnder.reachable (hreach : m.ReachableUnder condition s) : m.Reachable s := by
  induction hreach with
  | start hs => exact .start hs
  | next _ _ hnext ih => exact .next ih trivial hnext

/-- A step from a reachable state ends in a reachable state. -/
theorem Reachable.step (hreach : m.Reachable s) (label : Label)
    (hnext : m.next s label = some s') : m.Reachable s' :=
  .next hreach trivial hnext

/-- Executing labels whose steps all pass a check that implies the condition stays
within reach. -/
theorem ReachableUnder.of_guarded_run {check : State → Label → Bool}
    (hreach : m.ReachableUnder condition s)
    (hcheck : ∀ s label, check s label = true → condition s label)
    (hrun : (m.guarded check).run s labels = some s') : m.ReachableUnder condition s' := by
  induction labels generalizing s with
  | nil =>
    cases hrun
    exact hreach
  | cons label labels ih =>
    obtain ⟨middle, hnext, hrest⟩ := Option.bind_eq_some_iff.mp hrun
    simp only [guarded] at hnext
    split_ifs at hnext with hpass
    exact ih (.next hreach (hcheck s label hpass) hnext) hrest

/-- A check that always passes restricts nothing. -/
theorem guarded_true (m : Machine State Label) : (m.guarded fun _ _ => true) = m := by
  simp [guarded]

/-- Executing any labels from a reachable state ends in a reachable state. -/
theorem Reachable.of_run (hreach : m.Reachable s) (hrun : m.run s labels = some s') :
    m.Reachable s' :=
  ReachableUnder.of_guarded_run hreach (fun _ _ _ => trivial) (by rwa [m.guarded_true])

/-- A state that checked labels lead to is within reach. What was read off the run holds of it,
and so does whatever follows from both. -/
theorem exists_reachableUnder {conclusion : State → Prop} (hstart : m.start s)
    (check : State → Label → Bool) (hcheck : ∀ s label, check s label = true → condition s label)
    (labels : List Label) (property : State → Prop)
    (hrun : ∃ s', (m.guarded check).run s labels = some s' ∧ property s')
    (himp : ∀ s', m.ReachableUnder condition s' → property s' → conclusion s') :
    ∃ s', m.ReachableUnder condition s' ∧ conclusion s' := by
  obtain ⟨s', hrun, hproperty⟩ := hrun
  have hreach := (ReachableUnder.start hstart).of_guarded_run hcheck hrun
  exact ⟨s', hreach, himp s' hreach hproperty⟩

/-- The same of labels that need no check. -/
theorem exists_reachable {conclusion : State → Prop} (hstart : m.start s) (labels : List Label)
    (property : State → Prop) (hrun : ∃ s', m.run s labels = some s' ∧ property s')
    (himp : ∀ s', m.Reachable s' → property s' → conclusion s') :
    ∃ s', m.Reachable s' ∧ conclusion s' :=
  exists_reachableUnder hstart (fun _ _ => true) (fun _ _ _ => trivial) labels property
    (by rwa [m.guarded_true]) himp

/-- A condition holds along a list of steps if it holds at the first one and after it. -/
theorem Along.cons (hfirst : condition s label) (hnext : m.next s label = some s')
    (hrest : m.Along condition s' labels) : m.Along condition s (label :: labels) := by
  refine ⟨hfirst, fun middle hmiddle => ?_⟩
  obtain rfl := Option.some_inj.mp (hnext.symm.trans hmiddle)
  exact hrest

/-- Where a condition says of each allowed step whether it can be taken, it says of a list of
allowed steps whether they all can. -/
theorem isSome_run_iff_along {allowed : State → Label → Prop}
    (hstep : ∀ s label, allowed s label → ((m.next s label).isSome ↔ condition s label))
    (hallowed : m.Along allowed s labels) :
    (m.run s labels).isSome ↔ m.Along condition s labels := by
  induction labels generalizing s with
  | nil => exact ⟨fun _ => trivial, fun _ => rfl⟩
  | cons label labels ih =>
    obtain ⟨hfirst, hrest⟩ := hallowed
    have hnext := hstep s label hfirst
    rw [run, Along]
    cases hs' : m.next s label with
    | none => simpa [hs'] using hnext
    | some s' =>
      have hcond : condition s label := hnext.mp (by rw [hs']; rfl)
      rw [Option.bind_some, ih (hrest s' hs')]
      simp [hcond]

/-- A step of the observed machine is a step of the machine that extends the log. -/
theorem next_observed {observe : State → Label → List Obs} {s s' : State × List Obs}
    (hnext : (m.observed observe).next s label = some s') :
    m.next s.1 label = some s'.1 ∧ s'.2 = s.2 ++ observe s.1 label := by
  obtain ⟨middle, hmiddle, rfl⟩ := Option.map_eq_some_iff.mp hnext
  exact ⟨hmiddle, rfl⟩

/-- The invariant rule for the observed machine: what holds at every start with an empty log, and
is kept by every step meeting the condition while the log is extended. -/
theorem ReachableUnder.observed_invariant {observe : State → Label → List Obs}
    {condition : State × List Obs → Label → Prop} (Inv : State → List Obs → Prop)
    (hstart : ∀ s, m.start s → Inv s [])
    (hstep : ∀ s log label s', Inv s log → condition (s, log) label → m.next s label = some s' →
      Inv s' (log ++ observe s label))
    {t : State × List Obs} (hreach : (m.observed observe).ReachableUnder condition t) :
    Inv t.1 t.2 := by
  refine hreach.invariant (fun t => Inv t.1 t.2) ?_ ?_
  · rintro ⟨s, log⟩ ⟨hs, rfl⟩
    exact hstart s hs
  · rintro ⟨s, log⟩ label ⟨s', log'⟩ hinv hcond hnext
    obtain ⟨hnext, rfl⟩ := next_observed hnext
    exact hstep s log label s' hinv hcond hnext

end Machine

end Hack
