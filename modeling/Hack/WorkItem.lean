import Mathlib.Data.List.Basic

/-!
# Work items

A work item of a work queue has a routine that a worker runs some time after the item was
scheduled. Scheduling an item that is pending already does nothing. The worker clears the
pending flag before it runs the routine, so an item can be scheduled again while its routine
runs, and the routine never runs twice at the same time. A routine is taken to act once, in
the middle of its run. The number of actions that are still due ties an item to what its users
wait for.
-/

namespace Hack

/-- Where the worker is with the routine of an item. -/
inductive WorkPhase
  /-- The routine does not run. -/
  | idle
  /-- The routine runs and has not acted yet. -/
  | started
  /-- The routine runs and has acted. -/
  | acted
deriving DecidableEq

/-- A work item. -/
structure WorkItem where
  pending : Bool
  phase : WorkPhase
deriving DecidableEq

namespace WorkItem

variable {w w' : WorkItem}

/-- The item before it is used. -/
def fresh : WorkItem := ⟨false, .idle⟩

/-- Scheduling an item, which is refused exactly when it is pending. -/
def schedule (w : WorkItem) : Option WorkItem :=
  if w.pending then none else some { w with pending := true }

/-- The worker begins with the routine. -/
def start (w : WorkItem) : Option WorkItem :=
  if w.pending ∧ w.phase = .idle then some ⟨false, .started⟩ else none

/-- The routine acts. -/
def act (w : WorkItem) : Option WorkItem :=
  if w.phase = .started then some { w with phase := .acted } else none

/-- The routine returns. -/
def finish (w : WorkItem) : Option WorkItem :=
  if w.phase = .acted then some { w with phase := .idle } else none

/-- The number of actions that are still to come. -/
def due (w : WorkItem) : ℕ := (if w.pending then 1 else 0) + if w.phase = .started then 1 else 0

/-- Nothing is due from an item that was not used. -/
theorem due_fresh : fresh.due = 0 := rfl

/-- An item from which nothing is due can be scheduled. -/
theorem exists_schedule (h : w.due = 0) : ∃ w', w.schedule = some w' := by
  have hpending : w.pending = false := by
    by_contra hne
    simp [due, hne] at h
  exact ⟨_, by rw [schedule, hpending]; rfl⟩

/-- Scheduling an item makes one more action due. -/
theorem due_of_schedule (h : w.schedule = some w') : w'.due = w.due + 1 := by
  unfold schedule at h
  split_ifs at h with hpending
  cases h
  simp [due, hpending, Nat.add_comm]

/-- Beginning with the routine changes nothing about what is due. -/
theorem due_of_start (h : w.start = some w') : w'.due = w.due := by
  unfold start at h
  split_ifs at h with hstart
  cases h
  simp [due, hstart]

/-- The action is no longer due after it. -/
theorem due_of_act (h : w.act = some w') : w'.due + 1 = w.due := by
  unfold act at h
  split_ifs at h with hstarted
  cases h
  simp [due, hstarted]

/-- Returning changes nothing about what is due. -/
theorem due_of_finish (h : w.finish = some w') : w'.due = w.due := by
  unfold finish at h
  split_ifs at h with hacted
  cases h
  simp [due, hacted]

end WorkItem

end Hack
