import Hack.Zigzag

/-!
# Zigzag conversion and spaces

The filler of the tile is a space, and the last loops leave out every space of the tile. They do
not tell the filler from a space of the string. So the result has the characters of the string
exactly if the string has no space, apart from a single row, which is returned as it is.
-/

namespace Hack.Zigzag

open Cpp Loop

variable {s : List UInt8}

/-- The function ends and returns the characters of the string in some order. -/
def Permutes (s : List UInt8) (numRows : ℤ) : Prop :=
  ∀ colPtr, ∃ limit result, convert s numRows colPtr limit = some (some result) ∧ result.Perm s

/-- The last loops leave out every space. -/
theorem space_notMem_ans (zzTile : List (List UInt8)) : 32 ∉ ans zzTile := by
  intro hmem
  obtain ⟨row, -, hmem⟩ := List.mem_flatMap.mp hmem
  rw [List.mem_filter] at hmem
  exact absurd hmem.2 (by decide)

/-- A string that is written into a tile keeps its characters exactly if it has no space and its
size fits an `int`. -/
theorem permutes_iff_of_two_le {n : ℕ} (hne : s ≠ []) (hn : 2 ≤ n) (hint : n < 2 ^ 31) :
    Permutes s n ↔ s.length < 2 ^ 31 ∧ 32 ∉ s := by
  constructor
  · intro h
    obtain ⟨limit, result, hresult, hperm⟩ := h 0
    obtain ⟨zzTile, hreturns, rfl⟩ := (exists_convert_iff (by omega)).mp ⟨limit, hresult⟩
    have hspace : 32 ∉ s := fun hmem => space_notMem_ans zzTile (hperm.mem_iff.mpr hmem)
    refine ⟨?_, hspace⟩
    by_contra hlarge
    have hlt := length_ans_lt hn hint hspace (by omega) hreturns
    rw [hperm.length_eq] at hlt
    exact hlt.false
  · rintro ⟨hlength, hspace⟩ colPtr
    obtain ⟨limit, hresult⟩ := converts_of_length_lt hne hn hint hspace hlength colPtr
    exact ⟨limit, _, hresult, perm_zigzag (by omega) s⟩

/-- The result is a permutation of the string exactly if there is one row only, or the string has
no space and its size fits an `int`. -/
theorem permutes_iff {numRows : ℤ} (hne : s ≠ []) (hrows : 1 ≤ numRows) (hint : numRows < 2 ^ 31) :
    Permutes s numRows ↔ numRows = 1 ∨ s.length < 2 ^ 31 ∧ 32 ∉ s := by
  rcases eq_or_ne numRows 1 with rfl | hone
  · refine iff_of_true ?_ (.inl rfl)
    exact fun colPtr => ⟨0, s, rfl, .refl s⟩
  · obtain ⟨n, rfl⟩ := Int.eq_ofNat_of_zero_le (by omega : 0 ≤ numRows)
    rw [or_iff_right hone]
    exact permutes_iff_of_two_le hne (by omega) (by omega)

/-- Four characters in two rows. -/
theorem permutes_abcd : Permutes [97, 98, 99, 100] 2 :=
  (permutes_iff (by decide) (by decide) (by decide)).mpr (.inr (by decide))

/-- The space of `a b` is lost. -/
theorem not_permutes_space : ¬Permutes [97, 32, 98] 2 := by
  intro h
  have hspace := ((permutes_iff_of_two_le (by decide) (Nat.le_refl 2) (by decide)).mp h).2
  exact hspace (by decide)

end Hack.Zigzag
