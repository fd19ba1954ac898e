import Mathlib.Data.List.Induction
import Mathlib.Data.Set.Function

/-!
# The hash map

This file embeds `hashmap/main.c`. The map is an array of entries, and the hash of a key is
the index of its entry. An entry stores its key, but `map_get` never looks at it, so a key
shares its value with every other key of the same hash. The map law is stated for a set of
keys, against maps that are functions on keys.
-/

namespace Hack.Hashmap

open Function

/-- `SIZE_OF_MAP`. -/
def sizeOfMap : ℕ := 1024

/-- `Key`. -/
structure Key where
  x : Int32
  y : Int32
  i : Int32
  j : Int32
deriving DecidableEq

/-- `Map`, an entry of the array. -/
structure Map where
  assigned : Int32
  key : Key
  value : Int32
deriving DecidableEq

/-- The array `map`. -/
abbrev Table := Fin sizeOfMap → Map

/-- The array before the first call. -/
def zeroed : Table := fun _ => ⟨0, ⟨0, 0, 0, 0⟩, 0⟩

/-- `get_hash`. The sum wraps around, and the remainder has its sign. -/
def getHash (key : Key) : Int32 :=
  let result := key.i * key.i + key.x * key.x - key.y * key.y
  result % 1024

/-- The entry of the array at a hash, if the hash is an index. -/
def index (hashval : Int32) : Option (Fin sizeOfMap) :=
  if h : 0 ≤ hashval.toInt ∧ hashval.toInt.toNat < sizeOfMap then
    some ⟨hashval.toInt.toNat, h.2⟩
  else none

/-- `map_get`. Reading outside of the array is a fault. -/
def mapGet (map : Table) (key : Key) : Option Int32 :=
  (index (getHash key)).map fun i => (map i).value

/-- `map_set`: the hash, and the array after the call. -/
def mapSet (map : Table) (key : Key) (value : Int32) : Option (Int32 × Table) :=
  (index (getHash key)).map fun i => (getHash key, update map i ⟨1, key, value⟩)

/-- The array after a sequence of calls of `map_set`. -/
def setAll (map : Table) : List (Key × Int32) → Option Table
  | [] => some map
  | (key, value) :: sets => (mapSet map key value).bind fun result => setAll result.2 sets

/-- The value of the last call for a key, zero if there was none. -/
def lastValue (sets : List (Key × Int32)) (key : Key) : Int32 :=
  ((sets.reverse.find? (·.1 = key)).map Prod.snd).getD 0

/-- What `map_get` returns for a key after a sequence of calls of `map_set`. -/
def getAfter (sets : List (Key × Int32)) (key : Key) : Option Int32 :=
  (setAll zeroed sets).bind fun map => mapGet map key

/-- The map law for a set of keys: after calls for keys of the set, `map_get` returns the value
of the last call for the same key, and a call for one key does not change what another key
returns. -/
structure IsMap (keys : Set Key) : Prop where
  get : ∀ sets, (∀ set ∈ sets, set.1 ∈ keys) → ∀ key ∈ keys,
    getAfter sets key = some (lastValue sets key)
  frame : ∀ sets, (∀ set ∈ sets, set.1 ∈ keys) → ∀ key ∈ keys, ∀ other ∈ keys, other ≠ key →
    ∀ value, getAfter (sets ++ [(other, value)]) key = getAfter sets key

/-- A map on keys after a sequence of updates. -/
def updateAll (f : Key → Int32) (sets : List (Key × Int32)) : Key → Int32 :=
  sets.foldl (fun f set => update f set.1 set.2) f

/-- The array stores a map on a set of keys. -/
def Represents (keys : Set Key) (map : Table) (f : Key → Int32) : Prop :=
  ∀ key ∈ keys, mapGet map key = some (f key)

variable {keys : Set Key} {map : Table} {f : Key → Int32} {key other : Key} {value : Int32}
  {sets : List (Key × Int32)}

/-- Two hashes with the same entry are equal. -/
theorem index_injective {a b : Int32} {i : Fin sizeOfMap} (ha : index a = some i)
    (hb : index b = some i) : a = b := by
  unfold index at ha hb
  split_ifs at ha hb with hvalid hvalid'
  have hval := congrArg Fin.val ((Option.some_inj.mp ha).trans (Option.some_inj.mp hb).symm)
  dsimp only at hval
  exact Int32.toInt_inj.mp (by omega)

/-- A call for one key updates the map, as long as no other key has its hash. -/
theorem Represents.mapSet (h : Represents keys map f) (hinj : Set.InjOn getHash keys)
    (hkey : key ∈ keys) (value : Int32) :
    ∃ map', mapSet map key value = some (getHash key, map') ∧
      Represents keys map' (update f key value) := by
  obtain ⟨i, hi, -⟩ := Option.map_eq_some_iff.mp (h key hkey)
  refine ⟨update map i ⟨1, key, value⟩, by rw [Hashmap.mapSet, hi]; rfl, ?_⟩
  intro other hother
  obtain ⟨k, hk, hvalue⟩ := Option.map_eq_some_iff.mp (h other hother)
  rw [mapGet, hk, Option.map_some]
  by_cases heq : other = key
  · subst heq
    obtain rfl : k = i := Option.some_inj.mp (hk.symm.trans hi)
    rw [update_self, update_self]
  · have hne : k ≠ i := by
      rintro rfl
      exact heq (hinj hother hkey (index_injective hk hi))
    rw [update_of_ne hne, update_of_ne heq, hvalue]

/-- A sequence of calls updates the map for each of them. -/
theorem Represents.setAll (h : Represents keys map f) (hinj : Set.InjOn getHash keys)
    (hsets : ∀ set ∈ sets, set.1 ∈ keys) :
    ∃ map', setAll map sets = some map' ∧ Represents keys map' (updateAll f sets) := by
  induction sets generalizing map f with
  | nil => exact ⟨map, rfl, h⟩
  | cons set sets ih =>
    obtain ⟨hkey, hsets⟩ := List.forall_mem_cons.mp hsets
    obtain ⟨map', hset, h'⟩ := h.mapSet hinj hkey set.2
    obtain ⟨map'', hall, h''⟩ := ih h' hsets
    refine ⟨map'', ?_, h''⟩
    rw [Hashmap.setAll, hset]
    exact hall

/-- The map after updates has the last value of each key. -/
theorem updateAll_eq_lastValue (sets : List (Key × Int32)) (key : Key) :
    updateAll (fun _ => 0) sets key = lastValue sets key := by
  induction sets using List.reverseRecOn with
  | nil => rfl
  | append_singleton sets set ih =>
    rw [updateAll, List.foldl_append, List.foldl_cons, List.foldl_nil, ← updateAll]
    by_cases heq : set.1 = key
    · subst heq
      rw [update_self]
      simp [lastValue]
    · rw [update_of_ne (Ne.symm heq), ih]
      simp [lastValue, heq]

/-- For keys with different hashes, `map_get` returns what the map on keys does. -/
theorem getAfter_eq (hinj : Set.InjOn getHash keys)
    (hvalid : ∀ key ∈ keys, (index (getHash key)).isSome) (hsets : ∀ set ∈ sets, set.1 ∈ keys)
    (hkey : key ∈ keys) : getAfter sets key = some (lastValue sets key) := by
  have hzero : Represents keys zeroed fun _ => 0 := by
    intro key hkey
    obtain ⟨i, hi⟩ := Option.isSome_iff_exists.mp (hvalid key hkey)
    rw [mapGet, hi]
    rfl
  obtain ⟨map, hall, hmap⟩ := hzero.setAll hinj hsets
  rw [getAfter, hall, Option.bind_some, hmap key hkey, updateAll_eq_lastValue]

/-- Under the map law every hash is an index. -/
theorem IsMap.isSome_index (h : IsMap keys) (hkey : key ∈ keys) : (index (getHash key)).isSome := by
  obtain ⟨i, hi, -⟩ := Option.map_eq_some_iff.mp (h.get [] (List.forall_mem_nil _) key hkey)
  rw [hi]
  rfl

/-- Under the map law no two keys have the same hash. -/
theorem IsMap.injOn (h : IsMap keys) : Set.InjOn getHash keys := by
  intro key hkey other hother hhash
  by_contra hne
  -- A call for the first key is seen by the second one.
  obtain ⟨i, hi⟩ := Option.isSome_iff_exists.mp (h.isSome_index hkey)
  have hget := h.get [(key, 1)] (by simpa using hkey) other hother
  have hseen : getAfter [(key, 1)] other = some 1 := by
    simp [getAfter, setAll, mapSet, mapGet, ← hhash, hi]
  have hnone : lastValue [(key, 1)] other = 0 := by simp [lastValue, hne]
  rw [hseen, hnone] at hget
  exact absurd (Option.some_inj.mp hget) (by decide)

/-- Different hashes that are indices give the map law. -/
theorem isMap_of_injOn (hinj : Set.InjOn getHash keys)
    (hvalid : ∀ key ∈ keys, (index (getHash key)).isSome) : IsMap keys := by
  refine ⟨fun sets hsets key hkey => getAfter_eq hinj hvalid hsets hkey, ?_⟩
  intro sets hsets key hkey other hother hne value
  have hsets' : ∀ set ∈ sets ++ [(other, value)], set.1 ∈ keys := by
    intro set hset
    rcases List.mem_append.mp hset with hset | hset
    · exact hsets set hset
    · rw [List.mem_singleton.mp hset]
      exact hother
  rw [getAfter_eq hinj hvalid hsets' hkey, getAfter_eq hinj hvalid hsets hkey]
  simp [lastValue, hne]

/-- **The hash map is a map, for keys with different hashes.** For a set of keys whose hashes
are indices of the array, the map law holds if and only if no two of them have the same
hash. -/
theorem isMap_iff_injOn (hvalid : ∀ key ∈ keys, (index (getHash key)).isSome) :
    IsMap keys ↔ Set.InjOn getHash keys := by
  constructor
  · exact IsMap.injOn
  · intro hinj
    exact isMap_of_injOn hinj hvalid

/-- The law holds for the two keys of `main`. -/
theorem isMap_mainKeys : IsMap {⟨1, 2, 3, 4⟩, ⟨4, 3, 2, 1⟩} := by
  refine (isMap_iff_injOn ?_).mpr ?_
  · rintro key (rfl | rfl) <;> decide
  · rintro key (rfl | rfl) other (rfl | rfl) hhash
    · rfl
    · exact absurd hhash (by decide)
    · exact absurd hhash (by decide)
    · rfl

/-- Two keys of hash 1. The value that is set for the first one is returned for the second,
for which nothing was set. -/
theorem mapGet_returns_other_value : getAfter [(⟨1, 0, 0, 0⟩, 5)] ⟨0, 0, 1, 0⟩ = some 5 ∧
      lastValue [(⟨1, 0, 0, 0⟩, 5)] ⟨0, 0, 1, 0⟩ = 0 ∧
      getAfter [] ⟨0, 0, 1, 0⟩ = some 0 := by
  decide

end Hack.Hashmap
