import Hack.CString
import Hack.Hex
import Mathlib.Algebra.Group.Nat.Defs

/-!
# Bytes as hexadecimal strings

This file embeds `char2hex` and `hex2char` of `crypt-sym/sym.c`. The first writes each byte by
`sprintf` into an array that it has allocated, the second reads each by `sscanf` and keeps the
number read before where there is none.
-/

namespace Hack.CryptSym

open CString Hex

/-- The loop of `char2hex`: `sprintf` writes two digits and a closing zero at each second
place. -/
def char2hexFrom (hexarray : List UInt8) (i : ℕ) : List UInt8 → Option (List UInt8)
  | [] => some hexarray
  | byte :: bytes =>
    (store hexarray (2 * i) (encode 65 [byte])).bind fun hexarray =>
      char2hexFrom hexarray (i + 1) bytes

/-- `char2hex`. -/
def char2hex (arrlen : ℕ) (bytearray : List UInt8) : Option (List UInt8) :=
  if arrlen ≤ bytearray.length then
    char2hexFrom (List.replicate (2 * arrlen + 1) 0) 0 (bytearray.take arrlen)
  else none

/-- `sscanf` with the format `%2x`, as the GNU library has it. White space is skipped, and a sign
counts as one of the two characters. A digit that no digit follows is read alone, also the zero
of the mark `0x`. The number is reduced to a byte, as the assignment of it does. -/
def scanByte (text : List UInt8) : Option UInt8 :=
  match text.dropWhile isSpace with
  | [] => none
  | [p] => (value p).map UInt8.ofNat
  | p :: q :: _ =>
    if p = 43 then (value q).map UInt8.ofNat
    else if p = 45 then (value q).map fun d => 0 - UInt8.ofNat d
    else match value p, value q with
      | none, _ => none
      | some a, none => some (UInt8.ofNat a)
      | some a, some b => some (UInt8.ofNat (a * 16 + b))

/-- The loop of `hex2char` with the number that was read last. -/
def hex2charFrom : ℕ → UInt8 → List UInt8 → List UInt8
  | 0, _, _ => []
  | k + 1, n, text =>
    let n := (scanByte text).getD n
    n :: hex2charFrom k n (text.drop 2)

/-- The variable `outstrlen` of `hex2char`: half the length of the string, which is an `int`. -/
def outstrlen (text : List UInt8) : ℤ := (Int.bmod text.length (2 ^ 32)).tdiv 2

/-- `hex2char`. A negative length is too large for `malloc`, and the null pointer it returns is
written to. -/
def hex2char (hexarray : List UInt8) : Option (List UInt8) :=
  (cstr hexarray).bind fun text =>
    if outstrlen text < 0 then none else some (hex2charFrom (outstrlen text).toNat 0 text)

/-- What `hex2char` leaves in `*arrlen`, which it sets to zero and increments for each byte. -/
def hex2charArrlen (hexarray : List UInt8) : Option ℤ :=
  (cstr hexarray).bind fun text =>
    if outstrlen text < 0 then none
    else some ((List.range (outstrlen text).toNat).foldl (fun arrlen _ => arrlen + 1) 0)

variable {text bytes : List UInt8} {c : UInt8}

/-- The lengths that an `int` can hold are halved. -/
theorem outstrlen_eq (h : text.length < 2 ^ 31) : outstrlen text = (text.length / 2 : ℕ) := by
  have hbmod : Int.bmod text.length (2 ^ 32) = text.length := by
    rw [Int.bmod_def]
    omega
  have hhalf : outstrlen text = (text.length : ℤ).tdiv 2 := congrArg (Int.tdiv · 2) hbmod
  rw [hhalf, Int.tdiv_eq_ediv_of_nonneg (Int.natCast_nonneg _)]
  omega

/-- What hexadecimal digits are not: white space, a sign, a zero byte or a newline. -/
theorem value_plain {d : ℕ} (h : value c = some d) :
    isSpace c = false ∧ c ≠ 43 ∧ c ≠ 45 ∧ c ≠ 0 ∧ c ≠ 10 := by
  have hplain : ∀ d < 16, ∀ a ∈ [65, 97], isSpace (digit a d) = false ∧ digit a d ≠ 43 ∧
      digit a d ≠ 45 ∧ digit a d ≠ 0 ∧ digit a d ≠ 10 := by decide +kernel
  obtain ⟨hd, rfl | rfl⟩ := eq_digit_of_value h
  · exact hplain d hd 65 (by decide)
  · exact hplain d hd 97 (by decide)

/-- Every character that is written is a digit. -/
theorem mem_encode (hc : c ∈ encode 65 bytes) : ∃ d, value c = some d := by
  obtain ⟨b, -, hb⟩ := List.mem_flatMap.mp hc
  obtain ⟨hhigh, hlow⟩ := halves_lt b
  rcases List.mem_pair.mp hb with rfl | rfl
  · exact ⟨_, value_digit (.inl rfl) hhigh⟩
  · exact ⟨_, value_digit (.inl rfl) hlow⟩

/-- A text has no zero byte. -/
theorem zero_notMem_encode (bytes : List UInt8) : 0 ∉ encode 65 bytes := by
  intro hc
  obtain ⟨d, hd⟩ := mem_encode hc
  exact (value_plain hd).2.2.2.1 rfl

/-- A text has no newline. -/
theorem newline_notMem_encode (bytes : List UInt8) : 10 ∉ encode 65 bytes := by
  intro hc
  obtain ⟨d, hd⟩ := mem_encode hc
  exact (value_plain hd).2.2.2.2 rfl

/-- Only no bytes have an empty text. -/
theorem encode_ne_nil (h : bytes ≠ []) : encode 65 bytes ≠ [] := by
  obtain ⟨b, bytes, rfl⟩ := List.exists_cons_of_ne_nil h
  rw [encode_cons]
  exact List.cons_ne_nil _ _

/-- The loop writes the digits behind those that are there. -/
theorem char2hexFrom_eq {written : List UInt8} {i : ℕ} (hi : written.length = 2 * i)
    (bytes : List UInt8) :
    char2hexFrom (written ++ List.replicate (2 * bytes.length + 1) 0) i bytes =
      some (written ++ encode 65 bytes ++ [0]) := by
  induction bytes generalizing written i with
  | nil => simp [char2hexFrom, encode]
  | cons b bytes ih =>
    have hfits : 2 * i + (encode 65 [b]).length <
        (written ++ List.replicate (2 * (b :: bytes).length + 1) (0 : UInt8)).length := by
      rw [length_encode, List.length_append, List.length_replicate, hi, List.length_singleton,
        List.length_cons]
      omega
    have hstored : (written ++ List.replicate (2 * (b :: bytes).length + 1) (0 : UInt8)).drop
        (2 * i + (encode 65 [b]).length + 1) = List.replicate (2 * bytes.length) 0 := by
      rw [Nat.add_assoc, ← hi, ← List.drop_drop, List.drop_left, List.drop_replicate, length_encode,
        List.length_singleton, List.length_cons]
      congr 1
    have hnext : (written ++ encode 65 [b]).length = 2 * (i + 1) := by
      rw [List.length_append, length_encode, hi, List.length_singleton]
      omega
    rw [char2hexFrom, store, if_pos hfits, Option.bind_some, hstored, List.take_left' hi,
      ← List.replicate_succ, ih hnext, List.append_assoc written]
    rfl

/-- `char2hex` returns the text as a string. -/
theorem char2hex_eq {arrlen : ℕ} {bytearray : List UInt8} (h : arrlen ≤ bytearray.length) :
    char2hex arrlen bytearray = some (encode 65 (bytearray.take arrlen) ++ [0]) := by
  have hlength : (bytearray.take arrlen).length = arrlen := List.length_take_of_le h
  have hloop : char2hexFrom ([] ++ List.replicate (2 * (bytearray.take arrlen).length + 1) 0) 0
      (bytearray.take arrlen) = _ := char2hexFrom_eq rfl _
  rw [hlength, List.nil_append, List.nil_append] at hloop
  rw [char2hex, if_pos h, hloop]

/-- Two digits are read as the byte that they name. -/
theorem scanByte_digits {p q : UInt8} {a b : ℕ} (hp : value p = some a) (hq : value q = some b)
    (text : List UInt8) : scanByte (p :: q :: text) = some (UInt8.ofNat (a * 16 + b)) := by
  obtain ⟨hspace, hplus, hminus, -⟩ := value_plain hp
  rw [scanByte, List.dropWhile_cons_of_neg (Bool.eq_false_iff.mp hspace)]
  simp only [if_neg hplus, if_neg hminus, hp, hq]

/-- The text of a byte is read as the byte. -/
theorem scanByte_encode (b : UInt8) (text : List UInt8) :
    scanByte (digit 65 (b.toNat / 16) :: digit 65 (b.toNat % 16) :: text) = some b := by
  obtain ⟨hhigh, hlow⟩ := halves_lt b
  rw [scanByte_digits (value_digit (.inl rfl) hhigh) (value_digit (.inl rfl) hlow), ofNat_halves]

/-- The loop reads all bytes of a text. -/
theorem hex2charFrom_encode (n : UInt8) (bytes : List UInt8) :
    hex2charFrom bytes.length n (encode 65 bytes) = bytes := by
  induction bytes generalizing n with
  | nil => rfl
  | cons b bytes ih =>
    rw [encode_cons, List.length_cons, hex2charFrom, scanByte_encode]
    exact congrArg _ (ih b)

/-- `hex2char` of a string that has a length of type `int`. -/
theorem hex2char_eq (htext : 0 ∉ text) (hlength : text.length < 2 ^ 31) (rest : List UInt8) :
    hex2char (text ++ 0 :: rest) = some (hex2charFrom (text.length / 2) 0 text) := by
  rw [hex2char, cstr_append htext, Option.bind_some, outstrlen_eq hlength,
    if_neg (Int.not_lt.mpr (Int.natCast_nonneg _)), Int.toNat_natCast]

/-- `hex2char` inverts `char2hex`, whatever stands behind the text. -/
theorem hex2char_encode (hlength : 2 * bytes.length < 2 ^ 31) (rest : List UInt8) :
    hex2char (encode 65 bytes ++ 0 :: rest) = some bytes := by
  rw [hex2char_eq (zero_notMem_encode bytes) (by rwa [length_encode]), length_encode,
    Nat.mul_div_cancel_left _ Nat.two_pos, hex2charFrom_encode]

end Hack.CryptSym
