import Mathlib.Order.Bounds.Basic

/-!
# The shortest window

A window of a sequence is an interval of positions, with its end excluded. For a property of
windows that is kept when a window is prolonged to the left, two positions that only move forward
find the shortest window that has it. While the end of the window moves on, its beginning is moved
as long as the property holds. A beginning that was passed has given a window already, and each
longer one from there is of no use.
-/

namespace Hack.ShortestWindow

/-- The lengths of the windows up to a position that have a property. -/
def lengths (P : ℕ → ℕ → Prop) (front : ℕ) : Set ℕ :=
  {n | ∃ i j, i < j ∧ j ≤ front ∧ P i j ∧ n = j - i}

/-- Those lengths, and the ones of the windows that end with the next position and begin before
another one. -/
def lengthsFrom (P : ℕ → ℕ → Prop) (front rear : ℕ) : Set ℕ :=
  lengths P front ∪ {n | ∃ i < rear, i ≤ front ∧ P i (front + 1) ∧ n = front + 1 - i}

/-- A best length, unless there is none. -/
def Best (s : Set ℕ) : Option ℕ → Prop
  | none => s = ∅
  | some n => IsLeast s n

/-- Every beginning before a position has given a window. -/
def Passed (P : ℕ → ℕ → Prop) (front rear : ℕ) : Prop :=
  ∀ i < rear, ∃ j, i < j ∧ j ≤ front ∧ P i j

variable {P : ℕ → ℕ → Prop} {front rear n : ℕ} {s t : Set ℕ} {best : Option ℕ}

/-- Another length is taken into account. -/
theorem Best.add (h : Best s best) (n : ℕ) : Best (insert n s) (some (best.elim n (min n ·))) := by
  cases best with
  | none =>
    rw [show s = ∅ from h, insert_empty_eq]
    exact isLeast_singleton
  | some m => exact IsLeast.insert n h

/-- Lengths that are not below the others do not count. -/
theorem Best.of_dominated (h : Best s best) (hsub : s ⊆ t) (hdom : ∀ n ∈ t, ∃ m ∈ s, m ≤ n) :
    Best t best := by
  cases best with
  | none =>
    apply Set.eq_empty_of_forall_notMem
    intro n hn
    obtain ⟨m, hm, -⟩ := hdom n hn
    rw [show s = ∅ from h] at hm
    exact hm
  | some k =>
    refine ⟨hsub h.1, ?_⟩
    intro n hn
    obtain ⟨m, hm, hle⟩ := hdom n hn
    exact le_trans (h.2 hm) hle

/-- Before anything is read there is no window. -/
theorem best_lengths_zero (P : ℕ → ℕ → Prop) : Best (lengths P 0) none := by
  apply Set.eq_empty_of_forall_notMem
  rintro n ⟨i, j, hij, hj, -, -⟩
  omega

/-- The windows from the beginnings that were passed are longer than others. -/
theorem Best.of_passed (h : Best (lengths P front) best) (hpassed : Passed P front rear) :
    Best (lengthsFrom P front rear) best := by
  apply h.of_dominated Set.subset_union_left
  rintro n (hn | ⟨i, hi, -, -, rfl⟩)
  · exact ⟨n, hn, le_rfl⟩
  · obtain ⟨j, hij, hj, hP⟩ := hpassed i hi
    exact ⟨j - i, ⟨i, j, hij, hj, hP, rfl⟩, by omega⟩

/-- A window at the beginning is taken into account before that moves on. -/
theorem Best.pass (h : Best (lengthsFrom P front rear) best) (hrear : rear ≤ front)
    (hP : P rear (front + 1)) : Best (lengthsFrom P front (rear + 1))
      (some (best.elim (front + 1 - rear) (min (front + 1 - rear) ·))) := by
  have hinsert : lengthsFrom P front (rear + 1) =
      insert (front + 1 - rear) (lengthsFrom P front rear) := by
    ext n
    constructor
    · rintro (hn | ⟨i, hi, hle, hPi, rfl⟩)
      · exact .inr (.inl hn)
      · rcases Nat.lt_succ_iff_lt_or_eq.mp hi with hlt | rfl
        · exact .inr (.inr ⟨i, hlt, hle, hPi, rfl⟩)
        · exact .inl rfl
    · rintro (rfl | hn | ⟨i, hi, hle, hPi, rfl⟩)
      · exact .inr ⟨rear, Nat.lt_succ_self _, hrear, hP, rfl⟩
      · exact .inl hn
      · exact .inr ⟨i, Nat.lt_succ_of_lt hi, hle, hPi, rfl⟩
  rw [hinsert]
  exact h.add _

/-- When the window at the beginning does not have the property, neither has one within it, and the
next position is done. -/
theorem Best.lengths_succ (h : Best (lengthsFrom P front rear) best)
    (hleft : ∀ i i' j, i' ≤ i → P i j → P i' j) (hstop : rear ≤ front → ¬P rear (front + 1)) :
    Best (lengths P (front + 1)) best := by
  have heq : lengths P (front + 1) = lengthsFrom P front rear := by
    ext n
    constructor
    · rintro ⟨i, j, hij, hj, hP, rfl⟩
      rcases Nat.le_succ_iff.mp hj with hle | rfl
      · exact .inl ⟨i, j, hij, hle, hP, rfl⟩
      · rcases Nat.lt_or_ge i rear with hlt | hge
        · exact .inr ⟨i, hlt, by omega, hP, rfl⟩
        · exact absurd (hleft i rear _ hge hP) (hstop (by omega))
    · rintro (⟨i, j, hij, hj, hP, rfl⟩ | ⟨i, -, hle, hP, rfl⟩)
      · exact ⟨i, j, hij, by omega, hP, rfl⟩
      · exact ⟨i, front + 1, by omega, le_rfl, hP, rfl⟩
  rw [heq]
  exact h

/-- A beginning is passed with a window. -/
theorem Passed.succ (h : Passed P (front + 1) rear) (hrear : rear ≤ front)
    (hP : P rear (front + 1)) : Passed P (front + 1) (rear + 1) := by
  intro i hi
  rcases Nat.lt_succ_iff_lt_or_eq.mp hi with hlt | rfl
  · exact h i hlt
  · exact ⟨front + 1, by omega, le_rfl, hP⟩

theorem Passed.mono (h : Passed P front rear) : Passed P (front + 1) rear := by
  intro i hi
  obtain ⟨j, hij, hj, hP⟩ := h i hi
  exact ⟨j, hij, by omega, hP⟩

end Hack.ShortestWindow
