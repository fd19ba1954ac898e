import Hack.Cbc
import Hack.Hex

/-!
# AES in CBC mode, in Go

This file embeds `EncryptAES256CBC` and `DecryptAES256CBC` of `0xgo/crypt/sym/sym.go` with
`PKCS5Padding`. The block cipher is any family of permutations of blocks. Encryption pads the
plaintext, but decryption neither removes the padding nor returns as many bytes as it has
decrypted: its buffer is twice as long as the ciphertext.
-/

namespace Hack.GoSym

open Cbc

/-- The errors that the functions return. -/
inductive Error
  /-- An error made by `fmt.Errorf` from a text. -/
  | text (s : String)
  /-- An error made by `fmt.Errorf` from a text and the text of another error. -/
  | wrapped (s : String) (e : Error)
  /-- An error of `hex.DecodeString`. -/
  | hex (e : Hex.DecodeError)
  /-- An error of `aes.NewCipher` for a key of a wrong size. -/
  | keySize (size : ℕ)
  /-- An error of another package. -/
  | other (s : String)

/-- `aes.BlockSize`. -/
def blockSize : ℕ := 16

/-- The block ciphers, one for each key. -/
abbrev Aes := List UInt8 → Equiv.Perm (Block blockSize)

/-- The sizes of keys. -/
def ValidKey (key : List UInt8) : Prop := key.length = 16 ∨ key.length = 24 ∨ key.length = 32

instance (key : List UInt8) : Decidable (ValidKey key) := inferInstanceAs (Decidable (_ ∨ _))

/-- `aes.NewCipher`. -/
def newCipher (aes : Aes) (key : List UInt8) : Except Error (Equiv.Perm (Block blockSize)) :=
  if ValidKey key then .ok (aes key) else .error (.keySize key.length)

/-- The initialisation vector of `cipher.NewCBCEncrypter` and `cipher.NewCBCDecrypter`, which
panic if it is not a block. -/
def newMode (iv : List UInt8) : Option (Block blockSize) :=
  if iv.length = blockSize then some (.ofBytes blockSize iv) else none

/-- `CryptBlocks`, which panics unless the source is made of blocks and fits into the
destination. -/
def cryptBlocks (crypt : List UInt8 → List UInt8) (dst src : List UInt8) : Option (List UInt8) :=
  if src.length % blockSize = 0 ∧ src.length ≤ dst.length then
    some (crypt src ++ dst.drop src.length)
  else none

/-- `PKCS5Padding`. -/
def pkcs5Padding (ciphertext : List UInt8) (blockSize : ℕ) (_after : ℕ) : List UInt8 :=
  let padding := blockSize - ciphertext.length % blockSize
  ciphertext ++ List.replicate padding (UInt8.ofNat padding)

/-- `EncryptAES256CBC` with the bytes that `RandomBytes` returns, `none` if it panics. -/
def encryptAES256CBC (aes : Aes) (bIV plaintext key : List UInt8) : Option (List UInt8) :=
  let bPlaintext := pkcs5Padding plaintext blockSize plaintext.length
  match newCipher aes key with
  | .error _ => none
  | .ok block =>
    let ciphertext := List.replicate (bPlaintext.length + blockSize) 0
    (newMode bIV).bind fun iv =>
      (cryptBlocks (encrypt block iv) (ciphertext.drop blockSize) bPlaintext).map fun blocks =>
        let ciphertext := ciphertext.take blockSize ++ blocks
        -- The vector is copied over the beginning.
        Hex.encode 97 (bIV.take ciphertext.length ++ ciphertext.drop bIV.length)

/-- `DecryptAES256CBC`: the string and the error it returns, `none` if it panics. -/
def decryptAES256CBC (aes : Aes) (ciphertext key : List UInt8) :
    Option (List UInt8 × Option Error) :=
  if key.length ≠ 32 then some ([], some (.text "key must be 32 bytes for AES-256"))
  else match Hex.decode ciphertext with
    | .error e => some ([], some (.hex e))
    | .ok cipherData =>
      if cipherData.length < blockSize then some ([], some (.text "cipherText too short"))
      else
        let cipherText := cipherData.drop blockSize
        match newCipher aes key with
        | .error e => some ([], some e)
        | .ok block =>
          if cipherText.length % blockSize ≠ 0 then
            some ([], some (.text "cipherText is not a multiple of the block size"))
          else
            (newMode (cipherData.take blockSize)).bind fun iv =>
              (cryptBlocks (decrypt block iv) (List.replicate (cipherText.length * 2) 0)
                cipherText).map fun plainText => (plainText, none)

variable {aes : Aes} {bIV plaintext key : List UInt8}

/-- A key of a right size gives a cipher. -/
theorem newCipher_valid (hkey : ValidKey key) : newCipher aes key = .ok (aes key) := if_pos hkey

/-- Blocks that fit are written over the beginning of the destination. -/
theorem cryptBlocks_fits {crypt : List UInt8 → List UInt8} {dst src : List UInt8}
    (hdvd : blockSize ∣ src.length) (hfits : src.length ≤ dst.length) :
    cryptBlocks crypt dst src = some (crypt src ++ dst.drop src.length) :=
  if_pos ⟨Nat.mod_eq_zero_of_dvd hdvd, hfits⟩

/-- `PKCS5Padding` pads as block chaining needs it. -/
theorem pkcs5Padding_eq (bytes : List UInt8) (after : ℕ) :
    pkcs5Padding bytes blockSize after = pad blockSize bytes := rfl

/-- A padded plaintext is made of blocks. -/
theorem dvd_length_padded (bytes : List UInt8) : blockSize ∣ (pad blockSize bytes).length :=
  dvd_length_pad (by decide) bytes

/-- The vector stands before the blocks of the padded plaintext. -/
theorem encryptAES256CBC_eq (hkey : ValidKey key) (hiv : bIV.length = blockSize) :
    encryptAES256CBC aes bIV plaintext key =
      some (Hex.encode 97 (bIV ++ encrypt (aes key) (.ofBytes blockSize bIV)
        (pad blockSize plaintext))) := by
  have hdvd := dvd_length_padded plaintext
  simp only [encryptAES256CBC, pkcs5Padding_eq, newCipher_valid hkey, newMode, if_pos hiv,
    Option.bind_some]
  rw [cryptBlocks_fits hdvd (by simp)]
  simp [hiv, List.take_of_length_le]

/-- What decryption makes of a vector and blocks: it returns the decrypted blocks and as many
zero bytes behind them. -/
theorem decryptAES256CBC_eq {blocks : List UInt8} (hkey : key.length = 32)
    (hiv : bIV.length = blockSize) (hdvd : blockSize ∣ blocks.length) :
    decryptAES256CBC aes (Hex.encode 97 (bIV ++ blocks)) key =
      some (decrypt (aes key) (.ofBytes blockSize bIV) blocks ++
        List.replicate blocks.length 0, none) := by
  have hlong : ¬(bIV ++ blocks).length < blockSize := by
    rw [List.length_append, hiv]
    omega
  have hwhole : ¬blocks.length % blockSize ≠ 0 := not_not_intro (Nat.mod_eq_zero_of_dvd hdvd)
  simp only [decryptAES256CBC, if_neg (not_not_intro hkey), Hex.decode_encode (.inr rfl),
    if_neg hlong, newCipher_valid (.inr (.inr hkey)), List.drop_left' hiv, if_neg hwhole,
    List.take_left' hiv, newMode, if_pos hiv, Option.bind_some]
  rw [cryptBlocks_fits hdvd (by rw [List.length_replicate]; omega), Option.map_some,
    List.drop_replicate, Nat.mul_two, Nat.add_sub_cancel]

/-- Decryption returns the plaintext, its padding and as many zero bytes again. -/
theorem decryptAES256CBC_encrypted (hkey : key.length = 32) (hiv : bIV.length = blockSize) :
    (encryptAES256CBC aes bIV plaintext key).bind (decryptAES256CBC aes · key) =
      some (pad blockSize plaintext ++ List.replicate (pad blockSize plaintext).length 0,
        none) := by
  have hdvd := dvd_length_padded plaintext
  have hblocks : (encrypt (aes key) (.ofBytes blockSize bIV) (pad blockSize plaintext)).length =
      (pad blockSize plaintext).length := length_encrypt hdvd
  rw [encryptAES256CBC_eq (.inr (.inr hkey)) hiv, Option.bind_some,
    decryptAES256CBC_eq hkey hiv (hblocks ▸ hdvd), decrypt_encrypt hdvd, hblocks]

/-- A padded plaintext is longer than the plaintext. -/
theorem length_lt_length_padded (bytes : List UInt8) :
    bytes.length < (pad blockSize bytes).length := by
  have hlt : bytes.length % blockSize < blockSize := Nat.mod_lt _ (by decide)
  rw [pad, List.length_append, List.length_replicate]
  omega

/-- Decryption reports success on every encrypted plaintext, and never returns it. -/
theorem decryptAES256CBC_never_returns_plaintext (aes : Aes) (bIV plaintext key : List UInt8)
    (hkey : key.length = 32) (hiv : bIV.length = blockSize) :
    ∃ text, (encryptAES256CBC aes bIV plaintext key).bind (decryptAES256CBC aes · key) =
      some (text, none) ∧ text ≠ plaintext := by
  refine ⟨_, decryptAES256CBC_encrypted hkey hiv, fun heq => ?_⟩
  have hlength := congrArg List.length heq
  have hlt := length_lt_length_padded plaintext
  rw [List.length_append] at hlength
  omega

/-- A key and a vector of zero bytes, and a text of two bytes. -/
theorem decryptAES256CBC_never_returns_hi :
    ∃ text, (encryptAES256CBC (fun _ => Equiv.refl _) (List.replicate 16 0) [104, 105]
      (List.replicate 32 0)).bind
        (decryptAES256CBC (fun _ => Equiv.refl _) · (List.replicate 32 0)) =
      some (text, none) ∧ text ≠ [104, 105] :=
  decryptAES256CBC_never_returns_plaintext _ _ _ _ rfl rfl

/-- With the empty plaintext, decryption returns 32 bytes: a block of padding and a block of
zero bytes. -/
theorem empty_plaintext_returns_padding :
    (encryptAES256CBC (fun _ => Equiv.refl _) (List.replicate 16 7) [] (List.replicate 32 1)).bind
        (decryptAES256CBC (fun _ => Equiv.refl _) · (List.replicate 32 1)) ≠ some ([], none) := by
  rw [decryptAES256CBC_encrypted rfl rfl]
  intro h
  exact absurd (congrArg (fun r => r.map fun p => p.1.length) h) (by decide)

end Hack.GoSym
