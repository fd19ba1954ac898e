import Mathlib.Order.WellFounded

/-!
# Loops

A turn of a loop goes on with a new state or leaves the loop with a result, and a turn that has
no outcome is a fault. A loop is run with a limit on its turns, so that it can be executed, and
it returns what it returns under any limit that is large enough. Two rules reduce a statement
about a whole loop to one about a single turn: an invariant bounds what the loop may return, and
together with a quantity that decreases it shows that the loop does return.
-/

namespace Hack

/-- What a turn of a loop does when it does not fault. -/
inductive Turn (σ ρ : Type*)
  /-- The loop goes on. -/
  | next (s : σ)
  /-- The loop is left. -/
  | leave (r : ρ)

namespace Loop

variable {σ ρ : Type*} {body : σ → Option (Turn σ ρ)} {s s' : σ} {r r' : ρ}

/-- A loop with a limit on its turns: the outer `none` when the limit is reached, the inner one
for a fault. -/
def run (body : σ → Option (Turn σ ρ)) : ℕ → σ → Option (Option ρ)
  | 0, _ => none
  | limit + 1, s =>
    match body s with
    | none => some none
    | some (.next s') => run body limit s'
    | some (.leave r) => some (some r)

/-- The loop ends, and this is its result. -/
def Returns (body : σ → Option (Turn σ ρ)) (s : σ) (r : ρ) : Prop :=
  ∃ limit, run body limit s = some (some r)

/-- A limit that is large enough may be larger. -/
theorem run_mono {limit limit' : ℕ} (hle : limit ≤ limit') {result : Option ρ}
    (h : run body limit s = some result) : run body limit' s = some result := by
  induction limit generalizing s limit' with
  | zero => cases h
  | succ limit ih =>
    obtain ⟨limit', rfl⟩ := Nat.exists_eq_add_of_le' (Nat.zero_lt_of_lt hle)
    rw [run] at h ⊢
    cases hbody : body s with
    | none => rwa [hbody] at h
    | some turn =>
      rw [hbody] at h
      cases turn with
      | next s' => exact ih (Nat.le_of_succ_le_succ hle) h
      | leave r => exact h

/-- A loop that faults in its first turn. -/
theorem not_returns_of_fault (h : body s = none) : ¬Returns body s r := by
  rintro ⟨limit, hrun⟩
  cases limit with
  | zero => cases hrun
  | succ limit =>
    rw [run, h] at hrun
    cases hrun

/-- A loop that is left in its first turn. -/
theorem returns_iff_of_leave (h : body s = some (.leave r)) : Returns body s r' ↔ r = r' := by
  constructor
  · rintro ⟨limit, hrun⟩
    cases limit with
    | zero => cases hrun
    | succ limit =>
      rw [run, h] at hrun
      cases hrun
      rfl
  · rintro rfl
    exact ⟨1, by rw [run, h]⟩

/-- A turn does not change what a loop returns. -/
theorem returns_iff_of_next (h : body s = some (.next s')) :
    Returns body s r ↔ Returns body s' r := by
  constructor
  · rintro ⟨limit, hrun⟩
    cases limit with
    | zero => cases hrun
    | succ limit =>
      rw [run, h] at hrun
      exact ⟨limit, hrun⟩
  · rintro ⟨limit, hrun⟩
    refine ⟨limit + 1, ?_⟩
    rw [run, h]
    exact hrun

/-- **Partial correctness.** What holds before the loop and is kept by every turn holds in the
turn that leaves the loop. -/
theorem Returns.post (Inv : σ → Prop) (Post : ρ → Prop)
    (hnext : ∀ s s', Inv s → body s = some (.next s') → Inv s')
    (hleave : ∀ s r, Inv s → body s = some (.leave r) → Post r) (h : Inv s)
    (hreturns : Returns body s r) : Post r := by
  obtain ⟨limit, hrun⟩ := hreturns
  induction limit generalizing s with
  | zero => cases hrun
  | succ limit ih =>
    rw [run] at hrun
    cases hbody : body s with
    | none =>
      rw [hbody] at hrun
      cases hrun
    | some turn =>
      rw [hbody] at hrun
      cases turn with
      | next s' => exact ih (hnext s s' h hbody) hrun
      | leave r' =>
        cases hrun
        exact hleave s r h hbody

/-- A loop returns one result only. -/
theorem Returns.unique (h : Returns body s r) (h' : Returns body s r') : r = r' := by
  refine Returns.post (fun t => Returns body t r') (· = r') ?_ ?_ h' h
  · intro t t' ht hbody
    exact (returns_iff_of_next hbody).mp ht
  · intro t r'' ht hbody
    exact (returns_iff_of_leave hbody).mp ht

/-- **Total correctness.** A loop returns if every turn keeps an invariant without a fault and
decreases a quantity that cannot decrease forever. -/
theorem exists_returns {ι : Type*} [Preorder ι] [WellFoundedLT ι] (Inv : σ → Prop) (Post : ρ → Prop)
    (variant : σ → ι)
    (hbody : ∀ s, Inv s → (∃ s', body s = some (.next s') ∧ Inv s' ∧ variant s' < variant s) ∨
      ∃ r, body s = some (.leave r) ∧ Post r)
    (h : Inv s) : ∃ r, Returns body s r ∧ Post r := by
  induction hv : variant s using WellFoundedLT.induction generalizing s with
  | ind v ih =>
    obtain ⟨s', hnext, h', hlt⟩ | ⟨r, hleave, hpost⟩ := hbody s h
    · obtain ⟨r, hreturns, hpost⟩ := ih (variant s') (hv ▸ hlt) h' rfl
      exact ⟨r, (returns_iff_of_next hnext).mpr hreturns, hpost⟩
    · exact ⟨r, (returns_iff_of_leave hleave).mpr rfl, hpost⟩

end Loop

end Hack
