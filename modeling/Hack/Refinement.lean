import Hack.Machine

/-!
# Runs that refine the runs of another machine

A concrete machine and an abstract one take steps with the same labels, and a relation says which
abstract states a concrete state stands for. Where each step of the concrete machine can be taken,
and keeps the relation, exactly under a condition on the abstract state, the same holds of whole
runs. States and labels are arbitrary.
-/

namespace Hack.Machine

variable {State Abstract Label : Type*} {m : Machine State Label} {n : Machine Abstract Label}
  {Rep : State → Abstract → Prop} {condition : Abstract → Label → Prop}

/-- A run refines an abstract one exactly when the condition holds along the abstract run. -/
theorem exists_run_iff_along
    (hstep : ∀ s t t' label, Rep s t → condition t label → n.next t label = some t' →
      ∃ s', m.next s label = some s' ∧ Rep s' t')
    (hfault : ∀ s t label, Rep s t → ¬condition t label → m.next s label = none)
    {s : State} {t t' : Abstract} {labels : List Label} (hrep : Rep s t)
    (hrun : n.run t labels = some t') :
    (∃ s', m.run s labels = some s' ∧ Rep s' t') ↔ n.Along condition t labels := by
  induction labels generalizing s t with
  | nil =>
    cases hrun
    exact iff_of_true ⟨s, rfl, hrep⟩ trivial
  | cons label labels ih =>
    obtain ⟨middle, hnext, hrest⟩ := Option.bind_eq_some_iff.mp hrun
    by_cases hcond : condition t label
    · obtain ⟨s', hs', hrep'⟩ := hstep s t middle label hrep hcond hnext
      rw [run, hs', Option.bind_some, ih hrep' hrest]
      exact ⟨Along.cons hcond hnext, fun halong => halong.2 middle hnext⟩
    · rw [run, hfault s t label hrep hcond]
      refine iff_of_false ?_ fun halong => hcond halong.1
      rintro ⟨s', hs', -⟩
      cases hs'

end Hack.Machine
