import Mathlib.Data.List.Basic

/-!
# Hexadecimal text

Bytes written as pairs of hexadecimal digits, with letters of either case, and read back. Text
is a list of bytes, as it is in files and in C strings.
-/

namespace Hack.Hex

/-- The digit of a number below 16. The letters begin with the given one. -/
def digit (letter : UInt8) (d : ℕ) : UInt8 :=
  if d < 10 then UInt8.ofNat (48 + d) else UInt8.ofNat (letter.toNat + (d - 10))

/-- The number of a digit. -/
def value (c : UInt8) : Option ℕ :=
  if 48 ≤ c ∧ c ≤ 57 then some (c.toNat - 48)
  else if 65 ≤ c ∧ c ≤ 70 then some (c.toNat - 55)
  else if 97 ≤ c ∧ c ≤ 102 then some (c.toNat - 87)
  else none

/-- Each byte as two digits. -/
def encode (letter : UInt8) (bytes : List UInt8) : List UInt8 :=
  bytes.flatMap fun b => [digit letter (b.toNat / 16), digit letter (b.toNat % 16)]

/-- Why a text cannot be decoded. -/
inductive DecodeError
  | invalidByte (byte : UInt8)
  | oddLength
deriving DecidableEq

/-- The bytes of a text, two digits each. -/
def decode : List UInt8 → Except DecodeError (List UInt8)
  | [] => .ok []
  | [p] => if (value p).isNone then .error (.invalidByte p) else .error .oddLength
  | p :: q :: text =>
    match value p, value q with
    | none, _ => .error (.invalidByte p)
    | some _, none => .error (.invalidByte q)
    | some a, some b => (decode text).map (UInt8.ofNat (a * 16 + b) :: ·)

/-- The letters that a text may be written with. -/
def IsLetter (letter : UInt8) : Prop := letter = 65 ∨ letter = 97

variable {letter : UInt8}

/-- A digit reads back as its number. -/
theorem value_digit (hletter : IsLetter letter) {d : ℕ} (hd : d < 16) :
    value (digit letter d) = some d := by
  have hupper : ∀ d < 16, value (digit 65 d) = some d := by decide
  have hlower : ∀ d < 16, value (digit 97 d) = some d := by decide
  rcases hletter with rfl | rfl
  · exact hupper d hd
  · exact hlower d hd

/-- A byte that has a number is its digit, in one of the cases. -/
theorem eq_digit_of_value {c : UInt8} {d : ℕ} (h : value c = some d) :
    d < 16 ∧ (c = digit 65 d ∨ c = digit 97 d) := by
  have hlt := c.toNat_lt
  simp only [value, UInt8.le_iff_toNat_le, UInt8.toNat_ofNat] at h
  split_ifs at h with hdecimal hupper hlower <;> cases h
  · refine ⟨by omega, .inl ?_⟩
    apply UInt8.toNat_inj.mp
    rw [digit, if_pos (by omega), UInt8.toNat_ofNat']
    omega
  · refine ⟨by omega, .inl ?_⟩
    apply UInt8.toNat_inj.mp
    rw [digit, if_neg (by omega), UInt8.toNat_ofNat', show (65 : UInt8).toNat = 65 from rfl]
    omega
  · refine ⟨by omega, .inr ?_⟩
    apply UInt8.toNat_inj.mp
    rw [digit, if_neg (by omega), UInt8.toNat_ofNat', show (97 : UInt8).toNat = 97 from rfl]
    omega

/-- The halves of a byte are digits. -/
theorem halves_lt (b : UInt8) : b.toNat / 16 < 16 ∧ b.toNat % 16 < 16 := by
  have hlt := b.toNat_lt
  omega

/-- A byte is made of its halves. -/
theorem ofNat_halves (b : UInt8) : UInt8.ofNat (b.toNat / 16 * 16 + b.toNat % 16) = b := by
  rw [Nat.div_add_mod' b.toNat 16, UInt8.ofNat_toNat]

/-- The text of a first byte and of others. -/
theorem encode_cons (b : UInt8) (bytes : List UInt8) : encode letter (b :: bytes) =
      digit letter (b.toNat / 16) :: digit letter (b.toNat % 16) :: encode letter bytes := rfl

/-- Two characters for each byte. -/
theorem length_encode (bytes : List UInt8) : (encode letter bytes).length = 2 * bytes.length := by
  induction bytes with
  | nil => rfl
  | cons b bytes ih =>
    simp only [encode_cons, List.length_cons, ih]
    omega

/-- The text of bytes reads back as the bytes. -/
theorem decode_encode (hletter : IsLetter letter) (bytes : List UInt8) :
    decode (encode letter bytes) = .ok bytes := by
  induction bytes with
  | nil => rfl
  | cons b bytes ih =>
    obtain ⟨hhigh, hlow⟩ := halves_lt b
    rw [encode_cons, decode, value_digit hletter hhigh, value_digit hletter hlow]
    simp only [ih, Except.map, ofNat_halves]

end Hack.Hex
