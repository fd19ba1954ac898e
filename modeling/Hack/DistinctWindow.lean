import Mathlib.Data.List.Infix
import Mathlib.Data.List.Nodup
import Mathlib.Order.Bounds.Basic
import Mathlib.Order.MinMax

/-!
# Windows without repetition

A window of a list is a contiguous part of it. When a list is extended by one element, every new
window without repetition is a suffix, and the longest such suffix is the old one, cut behind the
last occurrence of the new element, with that element behind it. So one suffix has to be kept to
know the longest window of a list that is read from front to back.
-/

namespace Hack.DistinctWindow

variable {α : Type*} {l u v w : List α} {c : α}

/-- The longest suffix of a list without repetition. -/
structure LongestSuffix (l w : List α) : Prop where
  suffix : w <:+ l
  nodup : w.Nodup
  longest : ∀ u, u <:+ l → u.Nodup → u <:+ w

/-- The longest suffix of a window in which an element does not occur lies in another suffix of
it. -/
structure CutDownTo (c : α) (w v : List α) : Prop where
  suffix : v <:+ w
  longest : ∀ u, u <:+ w → c ∉ u → u <:+ v

/-- The lengths of the windows of a list without repetition. -/
def lengths (l : List α) : Set ℤ := {n | ∃ u, u <:+: l ∧ u.Nodup ∧ (u.length : ℤ) = n}

/-- Nothing is cut off yet. -/
theorem CutDownTo.refl (c : α) (w : List α) : CutDownTo c w w := ⟨List.suffix_rfl, fun _ h _ => h⟩

/-- The first element may be cut off while the element still occurs. -/
theorem CutDownTo.tail {a : α} (h : CutDownTo c w (a :: v)) (hc : c ∈ a :: v) :
    CutDownTo c w v := by
  constructor
  · exact (List.suffix_cons a v).trans h.suffix
  · intro u hu hcu
    rcases List.suffix_cons_iff.mp (h.longest u hu hcu) with rfl | hsuffix
    · exact absurd hc hcu
    · exact hsuffix

/-- The empty list has one suffix. -/
theorem longestSuffix_nil : LongestSuffix ([] : List α) [] :=
  ⟨List.suffix_rfl, List.nodup_nil, fun _ h _ => h⟩

/-- The longest suffix of a list with another element behind it. -/
theorem LongestSuffix.concat (h : LongestSuffix l w) (hcut : CutDownTo c w v) (hc : c ∉ v) :
    LongestSuffix (l ++ [c]) (v ++ [c]) := by
  constructor
  · exact List.suffix_concat_iff.mpr (.inr ⟨v, rfl, hcut.suffix.trans h.suffix⟩)
  · rw [← List.concat_eq_append]
    exact (h.nodup.sublist hcut.suffix.sublist).concat hc
  · intro u hu hnodup
    rcases List.suffix_concat_iff.mp hu with rfl | ⟨t, rfl, ht⟩
    · exact List.nil_suffix
    · rw [← List.concat_eq_append, List.nodup_concat] at hnodup
      have hsuffix := hcut.longest t (h.longest t ht hnodup.2) hnodup.1
      exact List.suffix_concat_iff.mpr (.inr ⟨t, rfl, hsuffix⟩)

/-- The empty list has one window. -/
theorem isGreatest_lengths_nil : IsGreatest (lengths ([] : List α)) 0 := by
  constructor
  · exact ⟨[], List.infix_rfl, List.nodup_nil, rfl⟩
  · rintro n ⟨u, hu, -, rfl⟩
    rw [List.eq_nil_of_infix_nil hu]
    rfl

/-- With another element, the longest window is the one before or the longest suffix. -/
theorem isGreatest_lengths_concat {n : ℤ} (h : IsGreatest (lengths l) n)
    (hw : LongestSuffix (l ++ [c]) w) : IsGreatest (lengths (l ++ [c])) (max n w.length) := by
  obtain ⟨⟨u, hu, hnodup, rfl⟩, hbound⟩ := h
  constructor
  · rcases max_choice (u.length : ℤ) w.length with hmax | hmax
    · exact ⟨u, List.infix_concat_iff.mpr (.inr hu), hnodup, hmax.symm⟩
    · exact ⟨w, hw.suffix.isInfix, hw.nodup, hmax.symm⟩
  · rintro m ⟨v, hv, hvnodup, rfl⟩
    rcases List.infix_concat_iff.mp hv with hsuffix | hinfix
    · have hle := (hw.longest v hsuffix hvnodup).length_le
      exact le_max_of_le_right (Int.ofNat_le.mpr hle)
    · exact le_max_of_le_left (hbound ⟨v, hinfix, hvnodup, rfl⟩)

/-- A part of a list has a part of its windows. -/
theorem lengths_subset (h : u <:+: l) : lengths u ⊆ lengths l := by
  rintro n ⟨v, hv, hnodup, rfl⟩
  exact ⟨v, hv.trans h, hnodup, rfl⟩

/-- An element alone is longer than nothing. -/
theorem not_isGreatest_lengths_zero (h : l ≠ []) : ¬IsGreatest (lengths l) 0 := by
  obtain ⟨a, rest, rfl⟩ := List.exists_cons_of_ne_nil h
  rintro ⟨-, hle⟩
  have hone : (1 : ℤ) ∈ lengths (a :: rest) :=
    ⟨[a], (List.prefix_append [a] rest).isInfix, List.nodup_singleton a, rfl⟩
  exact absurd (hle hone) (by decide)

/-- The longest one of a part is the longest one of the whole exactly if the whole has no other
lengths than the part. -/
theorem isGreatest_lengths_iff_subset {n : ℤ} (h : IsGreatest (lengths u) n) (hu : u <:+: l) :
    IsGreatest (lengths l) n ↔ lengths l ⊆ lengths u := by
  obtain ⟨⟨w, hw, hnodup, rfl⟩, hbound⟩ := h
  constructor
  · -- A shorter one is the front of the longest one.
    rintro ⟨-, hle⟩ m hm
    have hm' := hle hm
    obtain ⟨v, -, -, rfl⟩ := hm
    refine ⟨w.take v.length, (List.take_prefix _ _).isInfix.trans hw, ?_, ?_⟩
    · exact hnodup.sublist (List.take_sublist _ _)
    · rw [List.length_take]
      omega
  · intro hsubset
    exact ⟨lengths_subset hu ⟨w, hw, hnodup, rfl⟩, fun m hm => hbound (hsubset hm)⟩

end Hack.DistinctWindow
