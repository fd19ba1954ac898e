import Mathlib.Algebra.Group.Int.Defs
import Mathlib.Algebra.Group.Nat.Defs
import Mathlib.Data.List.Basic

/-!
# Counters and strings of C++ programs

Programs keep positions and sizes in variables of type `int`, although containers can be larger.
A size that does not fit is converted modulo `2 ^ 32`, and a loop that counts up to it visits the
elements before that position. An operation on `int` whose result does not fit, and a subscript
outside of a vector or behind the terminator of a string, have no defined result and are faults.
-/

namespace Hack.Cpp

/-- The size of a container, converted to `int`. -/
def size {α : Type*} (container : List α) : ℤ := Int.bmod container.length (2 ^ 32)

/-- `+= 1` on a counter of type `int`. -/
def increment (counter : ℕ) : Option ℕ := if counter + 1 < 2 ^ 31 then some (counter + 1) else none

/-- The result of an operation on `int`. -/
def int (n : ℤ) : Option ℤ := if -2 ^ 31 ≤ n ∧ n < 2 ^ 31 then some n else none

/-- A subscript of a vector. A negative one is converted to a very large number. -/
def element {α : Type*} (vector : List α) (i : ℤ) : Option α :=
  if i < 0 then none else vector[i.toNat]?

/-- The elements that `for (int i = 0; i < size; i++)` visits. -/
def visited {α : Type*} (container : List α) : List α := container.take (size container).toNat

/-- A subscript of a string, which has a zero behind its last character. -/
def subscript (s : List UInt8) (i : ℕ) : Option UInt8 := if i = s.length then some 0 else s[i]?

/-- A subscript of a string by an `int`. -/
def charAt (s : List UInt8) (i : ℤ) : Option UInt8 := if i < 0 then none else subscript s i.toNat

variable {α : Type*} {container : List α} {counter i : ℕ} {n : ℤ} {s : List UInt8} {counter' : ℕ}

/-- A size that fits is itself. -/
theorem size_eq (h : container.length < 2 ^ 31) : size container = container.length := by
  unfold size
  rw [Int.bmod_def]
  omega

/-- No size is larger than an `int`. -/
theorem size_lt (container : List α) : size container < 2 ^ 31 := by
  unfold size
  rw [Int.bmod_def]
  omega

/-- A converted size is at most the size. -/
theorem size_le (container : List α) : size container ≤ container.length := by
  unfold size
  rw [Int.bmod_def]
  omega

/-- A size that does not fit becomes smaller. -/
theorem size_lt_length (h : 2 ^ 31 ≤ container.length) : size container < container.length := by
  unfold size
  rw [Int.bmod_def]
  omega

/-- A size between `2 ^ 31` and `2 ^ 32` is not positive after its conversion. -/
theorem size_nonpos (hge : 2 ^ 31 ≤ container.length) (hle : container.length ≤ 2 ^ 32) :
    size container ≤ 0 := by
  unfold size
  rw [Int.bmod_def]
  omega

/-- An increment that fits. -/
theorem increment_eq (h : counter + 1 < 2 ^ 31) : increment counter = some (counter + 1) := if_pos h

/-- What an increment does. -/
theorem increment_eq_some (h : increment counter = some counter') : counter' = counter + 1 := by
  unfold increment at h
  split_ifs at h
  cases h
  rfl

/-- A counter fits. -/
theorem increment_lt (h : increment counter = some counter') : counter' < 2 ^ 31 := by
  unfold increment at h
  split_ifs at h with hlt
  cases h
  exact hlt

/-- A result that fits. -/
theorem int_eq (hge : -2 ^ 31 ≤ n) (hlt : n < 2 ^ 31) : int n = some n := if_pos ⟨hge, hlt⟩

/-- A subscript by a number that is not negative. -/
theorem element_natCast (vector : List α) (i : ℕ) : element vector i = vector[i]? := by
  rw [element, if_neg (Int.not_lt.mpr (Int.natCast_nonneg i)), Int.toNat_natCast]

/-- Of a container with a size that fits all elements are visited. -/
theorem visited_eq (h : container.length < 2 ^ 31) : visited container = container := by
  rw [visited, size_eq h, Int.toNat_natCast, List.take_length]

/-- Of a container with a size that becomes negative nothing is visited. -/
theorem visited_eq_nil (hge : 2 ^ 31 ≤ container.length) (hle : container.length ≤ 2 ^ 32) :
    visited container = [] := by
  rw [visited, Int.toNat_of_nonpos (size_nonpos hge hle), List.take_zero]

/-- What is visited is in the container. -/
theorem mem_of_mem_visited {a : α} (h : a ∈ visited container) : a ∈ container := by
  rw [visited] at h
  exact List.mem_of_mem_take h

/-- Fewer elements are visited than an `int` can count. -/
theorem length_visited_lt (container : List α) : (visited container).length < 2 ^ 31 := by
  have hlt := size_lt container
  rw [visited, List.length_take]
  omega

/-- A subscript inside of a string. -/
theorem subscript_eq (h : i < s.length) : subscript s i = some s[i] := by
  rw [subscript, if_neg (Nat.ne_of_lt h), List.getElem?_eq_getElem h]

/-- A subscript inside of a string by an `int` that is not negative. -/
theorem charAt_natCast (h : i < s.length) : charAt s i = some s[i] := by
  rw [charAt, if_neg (Int.not_lt.mpr (Int.natCast_nonneg i)), Int.toNat_natCast, subscript_eq h]

end Hack.Cpp
