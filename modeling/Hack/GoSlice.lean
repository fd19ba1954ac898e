import Mathlib.Algebra.Group.Nat.Defs
import Mathlib.Data.List.Basic

/-!
# Slices of bytes in Go

A slice is a part of an array that begins where the slice does. A slice expression may reach over
the length of the slice, up to the end of the array, and panics behind that.
-/

namespace Hack

/-- A slice of bytes: the array from its first byte on, and its length. -/
structure GoSlice where
  array : List UInt8
  len : ℕ
  len_le : len ≤ array.length

namespace GoSlice

/-- The bytes of a slice. -/
def bytes (s : GoSlice) : List UInt8 := s.array.take s.len

/-- A slice with the given bytes, in an array that goes on behind them. -/
def ofBytes (bytes spare : List UInt8) : GoSlice where
  array := bytes ++ spare
  len := bytes.length
  len_le := by simp

/-- The slice expression `s[low:high]`, `none` for a panic. -/
def slice (s : GoSlice) (low high : ℕ) : Option (List UInt8) :=
  if low ≤ high ∧ high ≤ s.array.length then some ((s.array.take high).drop low) else none

@[simp] theorem length_bytes (s : GoSlice) : s.bytes.length = s.len :=
  List.length_take_of_le s.len_le

@[simp] theorem bytes_ofBytes (bytes spare : List UInt8) : (ofBytes bytes spare).bytes = bytes :=
  List.take_left

/-- A slice expression that ends inside of the slice gives bytes of it. -/
theorem slice_eq (s : GoSlice) {low high : ℕ} (hlow : low ≤ high) (hhigh : high ≤ s.len) :
    s.slice low high = some ((s.bytes.drop low).take (high - low)) := by
  rw [slice, if_pos ⟨hlow, Nat.le_trans hhigh s.len_le⟩, bytes, List.drop_take,
    List.drop_take, List.take_take, Nat.min_eq_left (Nat.sub_le_sub_right hhigh low)]

end GoSlice

/-! ### Numbers of four bytes -/

/-- `binary.BigEndian.Uint32`, which panics on fewer than four bytes. -/
def bigEndianUint32 : List UInt8 → Option ℕ
  | b₀ :: b₁ :: b₂ :: b₃ :: _ =>
    some (b₀.toNat * 2 ^ 24 + b₁.toNat * 2 ^ 16 + b₂.toNat * 2 ^ 8 + b₃.toNat)
  | _ => none

/-- `binary.BigEndian.PutUint32`. -/
def putBigEndianUint32 (n : ℕ) : List UInt8 :=
  [.ofNat (n / 2 ^ 24), .ofNat (n / 2 ^ 16), .ofNat (n / 2 ^ 8), .ofNat n]

@[simp] theorem length_putBigEndianUint32 (n : ℕ) : (putBigEndianUint32 n).length = 4 := rfl

variable {n : ℕ} {bytes : List UInt8}

/-- A number that was written is read back. -/
theorem bigEndianUint32_put (hn : n < 2 ^ 32) (rest : List UInt8) :
    bigEndianUint32 (putBigEndianUint32 n ++ rest) = some n := by
  simp only [putBigEndianUint32, List.cons_append, List.nil_append, bigEndianUint32,
    UInt8.toNat_ofNat', Option.some.injEq]
  omega

/-- Four bytes and more begin with a number. -/
theorem exists_bigEndianUint32 (h : 4 ≤ bytes.length) :
    ∃ n, bigEndianUint32 bytes = some n ∧ n < 2 ^ 32 ∧
      bytes = putBigEndianUint32 n ++ bytes.drop 4 := by
  match bytes, h with
  | b₀ :: b₁ :: b₂ :: b₃ :: rest, _ =>
    have h₀ := b₀.toNat_lt
    have h₁ := b₁.toNat_lt
    have h₂ := b₂.toNat_lt
    have h₃ := b₃.toNat_lt
    refine ⟨_, rfl, by omega, ?_⟩
    simp only [putBigEndianUint32, List.drop_succ_cons, List.drop_zero, List.cons_append,
      List.nil_append, List.cons.injEq, and_true]
    refine ⟨?_, ?_, ?_, ?_⟩ <;>
    · apply UInt8.toNat_inj.mp
      rw [UInt8.toNat_ofNat']
      omega

/-- A number depends on four bytes. -/
theorem bigEndianUint32_take (bytes : List UInt8) :
    bigEndianUint32 (bytes.take 4) = bigEndianUint32 bytes := by
  match bytes with
  | [] | [_] | [_, _] | [_, _, _] | _ :: _ :: _ :: _ :: _ => rfl

/-- A number has four bytes. -/
theorem length_of_bigEndianUint32 (h : bigEndianUint32 bytes = some n) : 4 ≤ bytes.length := by
  match bytes, h with
  | _ :: _ :: _ :: _ :: _, _ => simp

end Hack
