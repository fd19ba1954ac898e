import Mathlib.Data.List.TakeWhile
import Mathlib.Data.Nat.ModEq

/-!
# Rings of slots that are handed over one after the other

A producer fills the slots of a ring in turn and marks each one as waiting, and a consumer takes
the waiting slots in the same order. Neither knows how far the other one is; each of them only
looks at the mark of the slot it has come to. Slots are numbered without end here, and the slot of
a number is its remainder. The waiting slots are then those from the number of items taken to the
number of items handed over. Slots and items are arbitrary.
-/

namespace Hack.StatusRing

open Function

variable {Slot Item : Type*}

/-- Two numbers of one round have the same slot only if they are equal. -/
theorem eq_of_mod_eq {n a i j : ℕ} (hi : a ≤ i) (hi' : i < a + n) (hj : a ≤ j) (hj' : j < a + n)
    (h : i % n = j % n) : i = j := by
  refine Nat.ModEq.eq_of_abs_lt h ?_
  rw [abs_lt]
  omega

/-- The slots from the number of items taken on wait, up to the number of items handed over, and
hold those items; no other slot of the ring waits. -/
structure Window (waits : Slot → Bool) (item : Slot → Item) (n : ℕ) (ring : ℕ → Slot)
    (items : List Item) (taken : ℕ) : Prop where
  le_length : taken ≤ items.length
  length_le : items.length ≤ taken + n
  waiting : ∀ i, taken ≤ i → i < items.length →
    waits (ring (i % n)) = true ∧ items[i]? = some (item (ring (i % n)))
  others : ∀ i, items.length ≤ i → i < taken + n → waits (ring (i % n)) = false

namespace Window

variable {waits : Slot → Bool} {item : Slot → Item} {n taken : ℕ} {ring : ℕ → Slot}
  {items : List Item}

/-- Nothing has been handed over yet. -/
theorem empty (hfree : ∀ i, waits (ring i) = false) : Window waits item n ring [] 0 :=
  ⟨Nat.le_refl 0, Nat.zero_le _, fun _ _ hi => absurd hi (Nat.not_lt_zero _), fun _ _ _ => hfree _⟩

section Facts

variable (h : Window waits item n ring items taken)
include h

/-- There is room if the slot that is to be filled next does not wait. -/
theorem length_lt (hn : 0 < n) (hfree : waits (ring (items.length % n)) = false) :
    items.length < taken + n := by
  refine Nat.lt_of_le_of_ne h.length_le fun hfull => ?_
  have hwaits := (h.waiting taken (Nat.le_refl _) (by omega)).1
  rw [hfull, Nat.add_mod_right, hwaits] at hfree
  cases hfree

/-- There is an item to take if the slot that is to be taken next waits. -/
theorem lt_length (hn : 0 < n) (hwaits : waits (ring (taken % n)) = true) :
    taken < items.length := by
  refine Nat.lt_of_le_of_ne h.le_length fun hempty => ?_
  have hfree := h.others taken (by omega) (by omega)
  rw [hwaits] at hfree
  cases hfree

/-- A slot is changed that neither waits nor does so afterwards. -/
theorem update_free {i : ℕ} (hfree : waits (ring i) = false) {slot : Slot}
    (hslot : waits slot = false) :
    Window waits item n (update ring i slot) items taken := by
  refine ⟨h.le_length, h.length_le, fun j hj hj' => ?_, fun j hj hj' => ?_⟩
  · have hne : j % n ≠ i := fun heq => by
      rw [← heq, (h.waiting j hj hj').1] at hfree
      cases hfree
    rw [update_of_ne hne]
    exact h.waiting j hj hj'
  · by_cases heq : j % n = i
    · rw [heq, update_self]
      exact hslot
    · rw [update_of_ne heq]
      exact h.others j hj hj'

/-- A waiting slot is changed that still waits with its item. -/
theorem update_waiting {i : ℕ} (hwaits : waits (ring i) = true) {slot : Slot}
    (hslot : waits slot = true) (hitem : item slot = item (ring i)) :
    Window waits item n (update ring i slot) items taken := by
  refine ⟨h.le_length, h.length_le, fun j hj hj' => ?_, fun j hj hj' => ?_⟩
  · by_cases heq : j % n = i
    · rw [heq, update_self, hitem, ← heq]
      exact ⟨hslot, (h.waiting j hj hj').2⟩
    · rw [update_of_ne heq]
      exact h.waiting j hj hj'
  · have hne : j % n ≠ i := fun heq => by
      rw [← heq, h.others j hj hj'] at hwaits
      cases hwaits
    rw [update_of_ne hne]
    exact h.others j hj hj'

/-- The next slot is handed over. -/
theorem push (hn : 0 < n) (hfree : waits (ring (items.length % n)) = false) {slot : Slot}
    (hslot : waits slot = true) :
    Window waits item n (update ring (items.length % n) slot) (items ++ [item slot])
      taken := by
  have hlt := h.length_lt hn hfree
  have hle := h.le_length
  have hlength : (items ++ [item slot]).length = items.length + 1 := by simp
  refine ⟨by omega, by omega, fun i hi hi' => ?_, fun i hi hi' => ?_⟩
  · rcases Nat.lt_or_ge i items.length with hold | hnew
    · have hne : i % n ≠ items.length % n := fun heq => by
        have := eq_of_mod_eq hi (by omega) h.le_length hlt heq
        omega
      rw [update_of_ne hne, List.getElem?_append_left hold]
      exact h.waiting i hi hold
    · obtain rfl : i = items.length := by omega
      rw [update_self]
      exact ⟨hslot, by simp⟩
  · have hne : i % n ≠ items.length % n := fun heq => by
      have := eq_of_mod_eq (by omega) hi' h.le_length hlt heq
      omega
    rw [update_of_ne hne]
    exact h.others i (by omega) hi'

/-- The first waiting slot is taken. -/
theorem pop (hn : 0 < n) (hwaits : waits (ring (taken % n)) = true) {slot : Slot}
    (hslot : waits slot = false) :
    Window waits item n (update ring (taken % n) slot) items (taken + 1) := by
  have hlt := h.lt_length hn hwaits
  have hle := h.length_le
  refine ⟨by omega, by omega, fun i hi hi' => ?_, fun i hi hi' => ?_⟩
  · have hne : i % n ≠ taken % n := fun heq => by
      have := eq_of_mod_eq (by omega) (by omega) (Nat.le_refl taken) (by omega) heq
      omega
    rw [update_of_ne hne]
    exact h.waiting i (by omega) hi'
  · rcases Nat.lt_or_ge i (taken + n) with hold | hnew
    · have hne : i % n ≠ taken % n := fun heq => by
        have := eq_of_mod_eq (by omega) hold (Nat.le_refl taken) (by omega) heq
        omega
      rw [update_of_ne hne]
      exact h.others i (by omega) hold
    · obtain rfl : i = taken + n := by omega
      rw [Nat.add_mod_right, update_self]
      exact hslot

/-- What is waiting is what has been handed over and not taken. -/
theorem takeWhile_eq :
    (((List.range n).map fun i => ring ((taken + i) % n)).takeWhile waits).map item =
      items.drop taken := by
  have hle := h.le_length
  have hle' := h.length_le
  obtain ⟨k, hk⟩ := Nat.le.dest hle
  obtain ⟨m, hm⟩ : ∃ m, n = k + m := ⟨n - k, by omega⟩
  -- The first numbers of the round wait, and the first one behind them does not.
  have hfirst : ∀ slot ∈ (List.range k).map fun i => ring ((taken + i) % n), waits slot = true := by
    intro slot hslot
    obtain ⟨i, hi, rfl⟩ := List.mem_map.mp hslot
    have hlt := List.mem_range.mp hi
    exact (h.waiting (taken + i) (by omega) (by omega)).1
  have hrest : (((List.range m).map (k + ·)).map fun i => ring ((taken + i) % n)).takeWhile waits =
      [] := by
    refine List.takeWhile_eq_nil_iff.mpr fun hpos => ?_
    have hlt : 0 < m := by simpa using hpos
    have hfree := h.others (taken + k) (by omega) (by omega)
    simp [hfree]
  have hrange : List.range n = List.range k ++ (List.range m).map (k + ·) := by
    rw [hm, List.range_add]
  rw [hrange, List.map_append, List.takeWhile_append_of_pos hfirst, hrest, List.append_nil,
    List.map_map]
  refine List.ext_getElem? fun i => ?_
  rw [List.getElem?_map, List.getElem?_drop]
  rcases Nat.lt_or_ge i k with hi | hi
  · rw [(h.waiting (taken + i) (by omega) (by omega)).2, List.getElem?_range hi]
    rfl
  · rw [List.getElem?_eq_none (by rw [List.length_range]; exact hi),
      List.getElem?_eq_none (by omega)]
    rfl

end Facts

end Window

end Hack.StatusRing
