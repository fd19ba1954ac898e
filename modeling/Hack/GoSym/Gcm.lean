import Hack.GoSym.Cbc

/-!
# AES in Galois/counter mode, in Go

This file embeds `EncryptAESGCM` and `DecryptAESGCM` of `0xgo/crypt/sym/sym.go`. Both refuse an
input that is shorter than a nonce and build the message of the refusal from the last error they
have seen. That error is nil there, so they panic.
-/

namespace Hack.GoSym

open Cbc

/-- The length that `gcm.NonceSize` returns. -/
def nonceSize : ℕ := 12

/-- An authenticated cipher without additional data. -/
structure Aead where
  /-- `Seal`. -/
  sealWith : List UInt8 → List UInt8 → List UInt8
  /-- `Open`. -/
  openWith : List UInt8 → List UInt8 → Except Error (List UInt8)
  /-- What was sealed under a nonce is opened under it. -/
  openWith_sealWith {nonce : List UInt8} (plaintext : List UInt8) (h : nonce.length = nonceSize) :
    openWith nonce (sealWith nonce plaintext) = .ok plaintext

/-- The cipher that `cipher.NewGCM` builds from a block cipher. It fails only for a block size
other than that of AES. -/
abbrev NewGcm := Equiv.Perm (Block blockSize) → Aead

/-- `fmt.Errorf` with the text of an error. A nil error has no text: `err.Error()` panics. -/
def wrapError (text : String) : Option Error → Option (List UInt8 × Option Error)
  | none => none
  | some e => some ([], some (.wrapped text e))

/-- `EncryptAESGCM` with the outcome of reading the random nonce, `none` if it panics. -/
def encryptAESGCM (aes : Aes) (newGcm : NewGcm) (random : Except Error (List UInt8))
    (key fileByte : List UInt8) : Option (List UInt8 × Option Error) :=
  match newCipher aes key with
  | .error e => wrapError "failed to encrypt with symmetric key: %s" (some e)
  | .ok c =>
    let gcm := newGcm c
    match random with
    | .error e => wrapError "failed to encrypt with symmetric key: %s" (some e)
    | .ok nonce =>
      if fileByte.length < nonceSize then
        -- The variable holds the nil error of the read before.
        wrapError "failed to encrypt with symmetric key: %s" none
      else some (nonce ++ gcm.sealWith nonce fileByte, none)

/-- `DecryptAESGCM`, `none` if it panics. -/
def decryptAESGCM (aes : Aes) (newGcm : NewGcm) (key fileByte : List UInt8) :
    Option (List UInt8 × Option Error) :=
  match newCipher aes key with
  | .error e => wrapError "failed to decrypt with symmetric key: %s" (some e)
  | .ok c =>
    let gcm := newGcm c
    if fileByte.length < nonceSize then
      wrapError "failed to decrypt with symmetric key: %s" none
    else
      match gcm.openWith (fileByte.take nonceSize) (fileByte.drop nonceSize) with
      | .error e => wrapError "failed to decrypt with symmetric key: %s" (some e)
      | .ok plainfile => some (plainfile, none)

variable {aes : Aes} {newGcm : NewGcm} {nonce key fileByte : List UInt8}

/-- Encryption of a file that is long enough puts the nonce before what is sealed. -/
theorem encryptAESGCM_long (hkey : ValidKey key) (hlong : nonceSize ≤ fileByte.length) :
    encryptAESGCM aes newGcm (.ok nonce) key fileByte =
      some (nonce ++ (newGcm (aes key)).sealWith nonce fileByte, none) := by
  simp only [encryptAESGCM, newCipher_valid hkey, if_neg (Nat.not_lt.mpr hlong)]

/-- Encryption of a shorter file panics. -/
theorem encryptAESGCM_short (hkey : ValidKey key) (hshort : fileByte.length < nonceSize) :
    encryptAESGCM aes newGcm (.ok nonce) key fileByte = none := by
  simp only [encryptAESGCM, newCipher_valid hkey, if_pos hshort, wrapError]

/-- Decryption returns what was sealed behind a nonce. -/
theorem decryptAESGCM_sealed (hkey : ValidKey key) (hnonce : nonce.length = nonceSize) :
    decryptAESGCM aes newGcm key (nonce ++ (newGcm (aes key)).sealWith nonce fileByte) =
      some (fileByte, none) := by
  have hlong : ¬(nonce ++ (newGcm (aes key)).sealWith nonce fileByte).length < nonceSize := by
    rw [List.length_append, hnonce]
    omega
  simp only [decryptAESGCM, newCipher_valid hkey, if_neg hlong, List.take_left' hnonce,
    List.drop_left' hnonce, Aead.openWith_sealWith _ _ hnonce]

/-- Decryption returns exactly for the files that are as long as a nonce. -/
theorem isSome_decryptAESGCM_iff (hkey : ValidKey key) :
    (decryptAESGCM aes newGcm key fileByte).isSome ↔ nonceSize ≤ fileByte.length := by
  simp only [decryptAESGCM, newCipher_valid hkey]
  by_cases hshort : fileByte.length < nonceSize
  · simp only [if_pos hshort, wrapError, Option.isSome_none, Bool.false_eq_true, false_iff]
    omega
  · rw [if_neg hshort]
    cases (newGcm (aes key)).openWith (fileByte.take nonceSize) (fileByte.drop nonceSize) with
    | error e => exact iff_of_true rfl (Nat.not_lt.mp hshort)
    | ok plainfile => exact iff_of_true rfl (Nat.not_lt.mp hshort)

/-- Decryption returns the plaintext of an encryption that has not panicked exactly if the
plaintext is as long as a nonce, and returns at all exactly if its own input is. -/
theorem gcm_round_trip_iff (aes : Aes) (newGcm : NewGcm)
    (nonce key plaintext ciphertext : List UInt8) (hkey : ValidKey key)
    (hnonce : nonce.length = nonceSize) :
    ((∃ encrypted, encryptAESGCM aes newGcm (.ok nonce) key plaintext = some (encrypted, none) ∧
        decryptAESGCM aes newGcm key encrypted = some (plaintext, none)) ↔
      nonceSize ≤ plaintext.length) ∧
    ((decryptAESGCM aes newGcm key ciphertext).isSome ↔ nonceSize ≤ ciphertext.length) := by
  refine ⟨⟨?_, fun hlong => ?_⟩, isSome_decryptAESGCM_iff hkey⟩
  · rintro ⟨encrypted, hencrypt, -⟩
    by_contra hshort
    rw [encryptAESGCM_short hkey (Nat.lt_of_not_le hshort)] at hencrypt
    exact absurd hencrypt (Option.some_ne_none _).symm
  · exact ⟨_, encryptAESGCM_long hkey hlong, decryptAESGCM_sealed hkey hnonce⟩

/-- A cipher that puts one byte in front of the plaintext and only opens what begins with it. -/
def markingAead : Aead where
  sealWith _ plaintext := 7 :: plaintext
  openWith _ ciphertext :=
    if ciphertext.head? = some 7 then .ok ciphertext.tail
    else .error (.other "cipher: message authentication failed")
  openWith_sealWith _ _ := rfl

/-- A plaintext of a nonce's length is returned, and a ciphertext that does not open is refused. -/
theorem gcm_round_trip_twelve :
    (∃ encrypted, encryptAESGCM (fun _ => Equiv.refl _) (fun _ => markingAead)
        (.ok (List.replicate 12 5)) (List.replicate 16 0) (List.replicate 12 1) =
          some (encrypted, none) ∧
        decryptAESGCM (fun _ => Equiv.refl _) (fun _ => markingAead) (List.replicate 16 0)
          encrypted = some (List.replicate 12 1, none)) ∧
    (decryptAESGCM (fun _ => Equiv.refl _) (fun _ => markingAead) (List.replicate 16 0)
      (List.replicate 20 2)).isSome ∧
    markingAead.openWith (List.replicate 12 2) (List.replicate 8 2) =
      .error (.other "cipher: message authentication failed") := by
  obtain ⟨hround, hreturns⟩ := gcm_round_trip_iff (fun _ => Equiv.refl _) (fun _ => markingAead)
    (List.replicate 12 5) (List.replicate 16 0) (List.replicate 12 1) (List.replicate 20 2)
    (.inl rfl) rfl
  exact ⟨hround.mpr (by decide), hreturns.mpr (by decide), rfl⟩

/-- A plaintext of one byte makes encryption panic, and a ciphertext of one byte decryption. -/
theorem gcm_panics_on_one_byte :
    encryptAESGCM (fun _ => Equiv.refl _) (fun _ => markingAead) (.ok (List.replicate 12 5))
        (List.replicate 16 0) [1] = none ∧
      decryptAESGCM (fun _ => Equiv.refl _) (fun _ => markingAead) (List.replicate 16 0) [1] =
        none :=
  ⟨encryptAESGCM_short (.inl rfl) (by decide), by
    rw [← Option.not_isSome_iff_eq_none, isSome_decryptAESGCM_iff (.inl rfl)]
    decide⟩

end Hack.GoSym
