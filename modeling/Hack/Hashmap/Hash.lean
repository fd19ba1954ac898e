import Hack.Hashmap.Map
import Mathlib.Algebra.Group.Int.Defs
import Mathlib.Algebra.Group.Nat.Defs

/-!
# The hash as an index

The sum of `get_hash` wraps around once as a whole, and the remainder of a negative number is
negative or zero. So a hash is always above `-SIZE_OF_MAP` and below `SIZE_OF_MAP`, and it is an
index of the array unless the sum is negative and no multiple of `SIZE_OF_MAP`. This decides
which sequences of calls stay in the array, and for which sets of keys the map law holds.
-/

namespace Hack.Hashmap

/-- The sum of `get_hash` over the integers. -/
def exactSum (key : Key) : ℤ := key.i.toInt ^ 2 + key.x.toInt ^ 2 - key.y.toInt ^ 2

/-- The sum is not negative as an `int`, or `SIZE_OF_MAP` divides it. -/
def HashFits (key : Key) : Prop :=
  exactSum key % 2 ^ 32 < 2 ^ 31 ∨ (sizeOfMap : ℤ) ∣ exactSum key

instance : DecidablePred HashFits := fun key =>
  inferInstanceAs (Decidable (exactSum key % 2 ^ 32 < 2 ^ 31 ∨ (sizeOfMap : ℤ) ∣ exactSum key))

/-- The hash of a key is an index of the array, and `map_get` and `map_set` access only the
array, whatever it contains. -/
structure StaysInTable (key : Key) : Prop where
  nonneg : 0 ≤ (getHash key).toInt
  le : (getHash key).toInt ≤ sizeOfMap - 1
  get : ∀ map, (mapGet map key).isSome
  set : ∀ map value, (mapSet map key value).isSome

variable {keys : Set Key} {key : Key}

/-- A truncated remainder has the sign of the dividend, or it is zero. -/
theorem tmod_nonneg_iff (a b : ℤ) : 0 ≤ a.tmod b ↔ 0 ≤ a ∨ b ∣ a := by
  rcases Int.le_total 0 a with ha | ha
  · exact iff_of_true (Int.tmod_nonneg b ha) (Or.inl ha)
  · have hneg : 0 ≤ -a.tmod b := by
      rw [← Int.neg_tmod]
      exact Int.tmod_nonneg b (Int.neg_nonneg_of_nonpos ha)
    rw [Int.dvd_iff_tmod_eq_zero]
    constructor
    · intro h
      right
      omega
    · rintro (h | h)
      · exact Int.tmod_nonneg b h
      · exact h.ge

/-- A number that wraps around is not negative if it is in the lower half. -/
theorem bmod_nonneg_iff (a : ℤ) : 0 ≤ a.bmod (2 ^ 32) ↔ a % 2 ^ 32 < 2 ^ 31 := by
  rw [Int.bmod_def]
  omega

/-- The size of the array divides `2 ^ 32`, so wrap-around keeps its multiples. -/
theorem sizeOfMap_dvd_bmod_iff (a : ℤ) :
    (sizeOfMap : ℤ) ∣ a.bmod (2 ^ 32) ↔ (sizeOfMap : ℤ) ∣ a := by
  rw [sizeOfMap, Int.bmod_def]
  omega

/-- The squares and the sums of `get_hash` wrap around, which is the same as wrap-around at the
end. -/
theorem toInt_getHash (key : Key) :
    (getHash key).toInt = ((exactSum key).bmod (2 ^ 32)).tmod sizeOfMap := by
  simp [getHash, exactSum, sizeOfMap, pow_two]

/-- A hash is below the size of the array. -/
theorem getHash_lt_sizeOfMap (key : Key) : (getHash key).toInt < sizeOfMap := by
  rw [toInt_getHash]
  exact Int.tmod_lt_of_pos _ (by decide)

/-- When a hash is not negative. -/
theorem getHash_nonneg_iff (key : Key) : 0 ≤ (getHash key).toInt ↔ HashFits key := by
  rw [toInt_getHash, tmod_nonneg_iff, bmod_nonneg_iff, sizeOfMap_dvd_bmod_iff, HashFits]

-- Both sums are negative. The second one is a multiple of the size, and its hash is zero.
example : ¬HashFits ⟨0, 1, 0, 0⟩ ∧ HashFits ⟨0, 32, 0, 0⟩ := by decide

/-- A hash that is no index leads to an access before the array, at most as far as the array is
long. -/
theorem getHash_neg (h : ¬HashFits key) :
    -(sizeOfMap : ℤ) < (getHash key).toInt ∧ (getHash key).toInt < 0 := by
  constructor
  · rw [toInt_getHash]
    exact Int.lt_tmod_of_pos _ (by decide)
  · rw [← Int.not_le, getHash_nonneg_iff]
    exact h

/-- When a hash is an index. -/
theorem isSome_index_getHash_iff (key : Key) : (index (getHash key)).isSome ↔ HashFits key := by
  rw [← getHash_nonneg_iff]
  have hlt := getHash_lt_sizeOfMap key
  unfold index
  split_ifs with h
  · exact iff_of_true rfl h.1
  · refine iff_of_false Bool.false_ne_true ?_
    intro hnonneg
    exact h ⟨hnonneg, by omega⟩

/-- When `map_get` reads in the array. -/
theorem isSome_mapGet_iff (map : Table) (key : Key) : (mapGet map key).isSome ↔ HashFits key := by
  rw [mapGet, Option.isSome_map, isSome_index_getHash_iff]

/-- When `map_set` writes in the array. -/
theorem isSome_mapSet_iff (map : Table) (key : Key) (value : Int32) :
    (mapSet map key value).isSome ↔ HashFits key := by
  rw [mapSet, Option.isSome_map, isSome_index_getHash_iff]

/-- A sequence of calls of `map_set` stays in the array if each of its keys does. -/
theorem isSome_setAll_iff (map : Table) (sets : List (Key × Int32)) :
    (setAll map sets).isSome ↔ ∀ set ∈ sets, HashFits set.1 := by
  induction sets generalizing map with
  | nil => exact iff_of_true rfl (List.forall_mem_nil _)
  | cons set sets ih =>
    rw [List.forall_mem_cons, ← isSome_mapSet_iff map set.1 set.2, setAll]
    cases hset : mapSet map set.1 set.2 with
    | none => simp
    | some result =>
      rw [Option.bind_some, ih]
      simp

/-- A call of `map_get` after calls of `map_set`. -/
theorem isSome_getAfter_iff (sets : List (Key × Int32)) (key : Key) :
    (getAfter sets key).isSome ↔ (∀ set ∈ sets, HashFits set.1) ∧ HashFits key := by
  rw [← isSome_setAll_iff zeroed, getAfter]
  cases setAll zeroed sets with
  | none => simp
  | some map =>
    rw [Option.bind_some, isSome_mapGet_iff]
    simp

/-- **The hash is an index, for keys with a sum that fits.** The hash of a key is between zero
and `SIZE_OF_MAP - 1`, and `map_get` and `map_set` access only the array, if and only if the sum
of its squares is not negative after wrap-around or is a multiple of `SIZE_OF_MAP`. -/
theorem staysInTable_iff (key : Key) : StaysInTable key ↔
      exactSum key % 2 ^ 32 < 2 ^ 31 ∨ (sizeOfMap : ℤ) ∣ exactSum key := by
  constructor
  · intro h
    exact (getHash_nonneg_iff key).mp h.nonneg
  · intro h
    refine ⟨(getHash_nonneg_iff key).mpr h, ?_, ?_, ?_⟩
    · exact Int.le_sub_one_of_lt (getHash_lt_sizeOfMap key)
    · intro map
      exact (isSome_mapGet_iff map key).mpr h
    · intro map value
      exact (isSome_mapSet_iff map key value).mpr h

/-- Two keys whose hashes are no indices. For the first one the sum is -1. For the second one,
which has nothing to subtract, the square wraps around. -/
theorem not_staysInTable_negative : getHash ⟨0, 1, 0, 0⟩ = -1 ∧ mapGet zeroed ⟨0, 1, 0, 0⟩ = none ∧
      ¬StaysInTable ⟨0, 1, 0, 0⟩ ∧
      getHash ⟨0, 0, 46341, 0⟩ = -487 ∧ ¬StaysInTable ⟨0, 0, 46341, 0⟩ := by
  refine ⟨by decide, by decide, ?_, by decide, ?_⟩
  · intro h
    exact absurd h.nonneg (by decide)
  · intro h
    exact absurd h.nonneg (by decide)

/-- **The hash map is a map, for keys with different hashes that are indices.** -/
theorem isMap_iff : IsMap keys ↔ Set.InjOn getHash keys ∧ ∀ key ∈ keys, HashFits key := by
  constructor
  · intro h
    refine ⟨h.injOn, ?_⟩
    intro key hkey
    exact (isSome_index_getHash_iff key).mp (h.isSome_index hkey)
  · rintro ⟨hinj, hfits⟩
    refine isMap_of_injOn hinj ?_
    intro key hkey
    exact (isSome_index_getHash_iff key).mpr (hfits key hkey)

end Hack.Hashmap
