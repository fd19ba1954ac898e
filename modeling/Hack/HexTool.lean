import Hack.CryptSym.HexText

/-!
# Hexadecimal text and back

This file embeds `bin2hex` and `hex2bin` of `hex/hex.c`. They are the functions `char2hex` and
`hex2char` of `crypt-sym/sym.c`, of which the second also counts the bytes. Decoding keeps the
length of its text in an `int`, so it inverts encoding on texts of fewer than `2 ^ 31` digits only.
-/

namespace Hack.HexTool

open CString Hex CryptSym

/-- `bin2hex`, for lengths whose text has a length of type `int`. -/
def bin2hex (arrlen : ℕ) (bytearray : List UInt8) : Option (List UInt8) :=
  char2hex arrlen bytearray

/-- `hex2bin`. -/
def hex2bin (hexarray : List UInt8) : Option (List UInt8) := hex2char hexarray

/-- A character in upper case. -/
def toUpper (c : UInt8) : UInt8 := if 97 ≤ c ∧ c ≤ 122 then c - 32 else c

/-- A text of hexadecimal digits, in any case. -/
def HexDigits (h : List UInt8) : Prop := ∀ c ∈ h, (value c).isSome

/-- Both encoders give texts that the decoders of their programs give back, and the count is the
number of bytes. -/
def Decodes (b : List UInt8) : Prop :=
  (∃ hexarray, bin2hex b.length b = some hexarray ∧ hex2bin hexarray = some b) ∧
    ∃ hexarray, char2hex b.length b = some hexarray ∧ hex2char hexarray = some b ∧
      hex2charArrlen hexarray = some (b.length : ℤ)

/-- Both decoders give bytes that the encoders of their programs write as the text in upper case,
and the count is the number of bytes. -/
def Recovers (h rest : List UInt8) : Prop :=
  (∃ bytes, hex2bin (h ++ 0 :: rest) = some bytes ∧
    bin2hex bytes.length bytes = some (h.map toUpper ++ [0])) ∧
    ∃ bytes, hex2char (h ++ 0 :: rest) = some bytes ∧
      hex2charArrlen (h ++ 0 :: rest) = some (bytes.length : ℤ) ∧
      char2hex bytes.length bytes = some (h.map toUpper ++ [0])

variable {b h : List UInt8}

/-- The number of a digit is written as the digit in upper case. -/
theorem digit_eq_toUpper {c : UInt8} {d : ℕ} (hc : value c = some d) : digit 65 d = toUpper c := by
  have hupper : ∀ d < 16, digit 65 d = toUpper (digit 65 d) := by decide
  have hlower : ∀ d < 16, digit 65 d = toUpper (digit 97 d) := by decide
  obtain ⟨hd, rfl | rfl⟩ := eq_digit_of_value hc
  · exact hupper d hd
  · exact hlower d hd

/-- A text of digits has no zero byte. -/
theorem zero_notMem_of_hexDigits (hdigits : HexDigits h) : 0 ∉ h := fun hzero =>
  absurd (hdigits 0 hzero) (by decide)

/-- The text of the byte that two digits name. -/
theorem encode_digits {p q : UInt8} {a b : ℕ} (hp : value p = some a) (hq : value q = some b) :
    encode 65 [UInt8.ofNat (a * 16 + b)] = [toUpper p, toUpper q] := by
  have ha := (eq_digit_of_value hp).1
  have hb := (eq_digit_of_value hq).1
  have hbyte : (UInt8.ofNat (a * 16 + b)).toNat = a * 16 + b := by
    rw [UInt8.toNat_ofNat']
    omega
  have hhigh : (a * 16 + b) / 16 = a := by omega
  have hlow : (a * 16 + b) % 16 = b := by omega
  rw [encode_cons, hbyte, hhigh, hlow, digit_eq_toUpper hp, digit_eq_toUpper hq]
  rfl

/-- The loop of the decoders gives bytes that are written as the digits in upper case. -/
theorem encode_hex2charFrom {k : ℕ} (hdigits : HexDigits h) (hk : h.length = 2 * k) (n : UInt8) :
    encode 65 (hex2charFrom k n h) = h.map toUpper := by
  induction k generalizing h n with
  | zero =>
    rw [List.eq_nil_of_length_eq_zero hk]
    rfl
  | succ k ih =>
    match h, hk with
    | p :: q :: text, hk =>
      obtain ⟨a, hp⟩ := Option.isSome_iff_exists.mp (hdigits p (by simp))
      obtain ⟨b, hq⟩ := Option.isSome_iff_exists.mp (hdigits q (by simp))
      have htext : HexDigits text := fun c hc => hdigits c (by simp [hc])
      have hlength : text.length = 2 * k := by
        rw [List.length_cons, List.length_cons] at hk
        omega
      rw [hex2charFrom, scanByte_digits hp hq]
      change encode 65 ([UInt8.ofNat (a * 16 + b)] ++ hex2charFrom k _ text) = _
      rw [encode, List.flatMap_append, ← encode, ← encode, encode_digits hp hq, ih htext hlength]
      rfl

/-- The loop of the decoders gives as many bytes as it has iterations. -/
theorem length_hex2charFrom (k : ℕ) (n : UInt8) (text : List UInt8) :
    (hex2charFrom k n text).length = k := by
  induction k generalizing n text with
  | zero => rfl
  | succ k ih => rw [hex2charFrom, List.length_cons, ih]

/-- Counting up once in each iteration. -/
theorem foldl_count (k : ℕ) : (List.range k).foldl (fun arrlen _ => arrlen + 1) (0 : ℤ) = k := by
  induction k with
  | zero => rfl
  | succ k ih =>
    rw [List.range_succ, List.foldl_append, ih, List.foldl_cons, List.foldl_nil]
    rfl

/-- What a decoder has decoded, and how many bytes it has counted. -/
theorem hex2char_eq_some {bytes rest : List UInt8} (hzero : 0 ∉ h)
    (hbytes : hex2char (h ++ 0 :: rest) = some bytes) :
    0 ≤ outstrlen h ∧ bytes = hex2charFrom (outstrlen h).toNat 0 h ∧
      hex2charArrlen (h ++ 0 :: rest) = some (bytes.length : ℤ) := by
  rw [hex2char, cstr_append hzero, Option.bind_some] at hbytes
  rw [hex2charArrlen, cstr_append hzero, Option.bind_some]
  split_ifs at hbytes ⊢ with hsign
  obtain rfl := Option.some.inj hbytes
  refine ⟨Int.not_lt.mp hsign, rfl, ?_⟩
  rw [foldl_count, length_hex2charFrom]

/-- Of a text that is too long for an `int`, a part is decoded at most. -/
theorem outstrlen_lt (hlong : 2 ^ 31 ≤ h.length) : 2 * outstrlen h < h.length := by
  have hupper : Int.bmod h.length (2 ^ 32) < 2 ^ 31 := by
    rw [Int.bmod_def]
    omega
  have hhalf : 2 * outstrlen h ≤ max 0 (Int.bmod h.length (2 ^ 32)) := by
    unfold outstrlen
    generalize Int.bmod h.length (2 ^ 32) = hexlen
    rw [Int.tdiv_eq_ediv]
    split_ifs with hexact
    · omega
    · rw [show (2 : ℤ).sign = 1 from rfl]
      omega
  omega

/-- Arrays whose text has a length of type `int` are decoded. -/
theorem decodes_of_lt (hb : 2 * b.length + 1 < 2 ^ 31) : Decodes b := by
  have hencode := char2hex_eq (Nat.le_refl b.length)
  rw [List.take_length] at hencode
  have hdecode := hex2char_encode (by omega : 2 * b.length < 2 ^ 31) []
  exact ⟨⟨_, hencode, hdecode⟩, _, hencode, hdecode,
    (hex2char_eq_some (zero_notMem_encode b) hdecode).2.2⟩

/-- The texts that are recovered are those with a length of type `int`. -/
theorem recovers_iff (hdigits : HexDigits h) (heven : 2 ∣ h.length) (rest : List UInt8) :
    Recovers h rest ↔ h.length < 2 ^ 31 := by
  have hzero := zero_notMem_of_hexDigits hdigits
  constructor
  · rintro ⟨⟨bytes, hdecode, hencode⟩, -⟩
    obtain ⟨hsign, hbytes, -⟩ := hex2char_eq_some hzero hdecode
    by_contra hlong
    have hpart := outstrlen_lt (Nat.not_lt.mp hlong)
    rw [bin2hex, char2hex_eq (Nat.le_refl _), List.take_length] at hencode
    -- Fewer bytes are decoded than the text has pairs of digits.
    have hlength := congrArg List.length (Option.some.inj hencode)
    rw [List.length_append, List.length_append, length_encode, List.length_map, hbytes,
      length_hex2charFrom] at hlength
    omega
  · intro hlength
    obtain ⟨k, hk⟩ := heven
    have hdecode := hex2char_eq hzero hlength rest
    have hcount := (hex2char_eq_some hzero hdecode).2.2
    have hencode : char2hex (hex2charFrom (h.length / 2) 0 h).length
        (hex2charFrom (h.length / 2) 0 h) = some (h.map toUpper ++ [0]) := by
      rw [char2hex_eq (Nat.le_refl _), List.take_length, encode_hex2charFrom hdigits (by omega)]
    exact ⟨⟨_, hdecode, hencode⟩, _, hdecode, hcount, hencode⟩

/-- Encoding and decoding are inverse, for texts of fewer than `2 ^ 31` digits and for no
others. -/
theorem hex_inverse_iff (hb : 2 * b.length + 1 < 2 ^ 31) (hdigits : HexDigits h)
    (heven : 2 ∣ h.length) (rest : List UInt8) :
    Decodes b ∧ Recovers h rest ↔ h.length < 2 ^ 31 := by
  rw [recovers_iff hdigits heven, and_iff_right (decodes_of_lt hb)]

/-- The bytes of `Hi`, and the text `aF`. -/
theorem hex_inverse_hi : Decodes [72, 105] ∧ Recovers [97, 70] [] :=
  (hex_inverse_iff (by decide) (by simp [HexDigits, value]) (by decide) []).mpr (by decide)

/-- A text of `2 ^ 32` zeros is not recovered. -/
theorem not_recovers_long :
    HexDigits (List.replicate (2 ^ 32) 48) ∧ 2 ∣ (List.replicate (2 ^ 32) (48 : UInt8)).length ∧
      ¬Recovers (List.replicate (2 ^ 32) 48) [] := by
  have hdigits : HexDigits (List.replicate (2 ^ 32) 48) := by
    intro c hc
    rw [List.eq_of_mem_replicate hc]
    rfl
  have heven : 2 ∣ (List.replicate (2 ^ 32) (48 : UInt8)).length := by
    rw [List.length_replicate]
    decide
  refine ⟨hdigits, heven, ?_⟩
  rw [recovers_iff hdigits heven, List.length_replicate]
  decide

end Hack.HexTool
