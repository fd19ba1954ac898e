import Hack.CryptSym.Sym

/-!
# What is encrypted to a file is decrypted from it

A message of less than `MAX_IN` bytes is encrypted as the whole array that it was copied into,
and the ciphertext is one block longer. Its text fits into the array that `sym_decrypt` reads it
into, and the zero byte that the message had behind it in the first array ends it again in
`dec_msg`.
-/

namespace Hack.CryptSym

open CString CFile Cbc Hex Function

variable {aes : Aes} {hmac : List UInt8 → List UInt8 → List UInt8} {stack : Stack}
  {files : Files} {keyPath ivPath encPath : String} {secrets : Secrets} {text : List UInt8}

/-- A ciphertext is decrypted to the array, and its padding holds no further bytes. -/
theorem decryptUpdate_ciphertextOf (aes : Aes) (secrets : Secrets) {inbuf : List UInt8}
    (hlength : inbuf.length = maxIn) :
    ∃ ctx, Stream.decryptUpdate (aes secrets.key.toList)
        ⟨.ofBytes ivLen secrets.iv.toList, []⟩ (ciphertextOf aes secrets inbuf) = (inbuf, ctx) ∧
      Stream.decryptFinal (aes secrets.key.toList) ctx = some [] := by
  have hfull : inbuf.length / ivLen * ivLen = inbuf.length := by rw [hlength]; rfl
  have hstream := @Stream.decrypt_encrypt ivLen (aes secrets.key.toList) (by decide) (by decide)
    (.ofBytes ivLen secrets.iv.toList) inbuf
  rw [hfull, List.take_length, List.drop_length] at hstream
  exact ⟨_, Prod.ext hstream.1 rfl, hstream.2⟩

/-- The array begins with the message and a zero byte. -/
theorem inbufOf_eq (hlength : text.length < maxIn) :
    inbufOf text = text ++ 0 :: List.replicate (maxIn - text.length - 1) 0 := by
  rw [inbufOf, ← List.replicate_succ, Nat.sub_add_cancel (Nat.sub_pos_of_lt hlength)]

/-- `sym_decrypt` copies the message of an encrypted file to an array that has room for it. -/
theorem symDecrypt_eq (secrets : Secrets) {decMsg scratch : List UInt8}
    (hkeyFile : HoldsText files keyPath secrets.key.toList)
    (hivFile : HoldsText files ivPath secrets.iv.toList)
    (hencFile : HoldsText files encPath (ciphertextOf aes secrets (inbufOf text)))
    (htext : 0 ∉ text) (hlength : text.length < maxIn) (hroom : text.length < decMsg.length) :
    symDecrypt aes stack scratch files keyPath ivPath encPath decMsg =
      some (text ++ 0 :: decMsg.drop (text.length + 1)) := by
  obtain ⟨keyHex, hkeyRead, hkey⟩ := exists_readLine_key (by decide) hkeyFile stack.keyHex
  obtain ⟨ivHex, hivRead, hiv⟩ := exists_readLine_key (by decide) hivFile stack.ivHex
  have hfull := length_inbufOf hlength
  have hbytes : (ciphertextOf aes secrets (inbufOf text)).length = maxIn + ivLen :=
    length_ciphertextOf hfull
  obtain ⟨inbuf, hinbufRead, hinbuf⟩ : ∃ hexarray,
      readLine files encPath (List.replicate maxOut 0) maxOut = some hexarray ∧
        hex2char hexarray = some (ciphertextOf aes secrets (inbufOf text)) := by
    refine exists_readLine hencFile ?_ ?_ ?_ (by decide)
    · exact List.ne_nil_of_length_pos (by rw [hbytes]; decide)
    · rw [hbytes]
      decide
    · rw [hbytes, List.length_replicate]
      decide
  obtain ⟨ctx, hupdate, hfinal⟩ := decryptUpdate_ciphertextOf aes secrets hfull
  have hscratch : (inbufOf text ++ scratch.take ivLen).length ≤
      (List.replicate maxOut (0 : UInt8)).length := by
    have hle : (scratch.take ivLen).length ≤ ivLen := List.length_take_le _ _
    have hmax : maxIn + ivLen ≤ maxOut := by decide
    rw [List.length_append, hfull, List.length_replicate]
    omega
  rw [symDecrypt, bind_of_eq_some hkeyRead, bind_of_eq_some hivRead, bind_of_eq_some hkey,
    bind_of_eq_some hiv, bind_of_eq_some hinbufRead, bind_of_eq_some hinbuf,
    bind_of_eq_some (evpInit_secrets secrets)]
  dsimp only
  rw [hupdate]
  dsimp only
  rw [bind_of_eq_some (write_zero hscratch), hfinal, Option.getD_some, List.append_assoc,
    bind_of_eq_some (write_append (inbufOf text) (Nat.zero_le _)), inbufOf_eq hlength,
    List.append_nil, List.append_assoc, List.cons_append, strcpy_eq htext hroom]

/-- Keys written by `sym_keygen` and a message encrypted by `sym_encrypt` to files are decrypted
from these by `sym_decrypt`, and no step leaves an array. -/
theorem symDecrypt_symEncrypt (aes : Aes) (hmac : List UInt8 → List UInt8 → List UInt8)
    (stack stack' : Stack) (scratch : List UInt8) (files : Files) (secrets : Secrets)
    (keyPath ivPath encPath : String) (encLen : ℤ) (text rest decMsg : List UInt8)
    (hpaths : PathsDiffer keyPath ivPath encPath) (htext : 0 ∉ text)
    (hlength : text.length ≤ 255) (hroom : text.length < decMsg.length) :
    ((symKeygen files keyPath ivPath secrets).bind fun files =>
      (symEncrypt aes hmac stack files keyPath ivPath encLen (text ++ 0 :: rest) encPath).bind
        fun encryption => symDecrypt aes stack' scratch encryption.files keyPath ivPath encPath
          decMsg) = some (text ++ 0 :: decMsg.drop (text.length + 1)) := by
  obtain ⟨written, hkeygen, hsecrets⟩ := exists_symKeygen files secrets hpaths
  have hfits : text.length < maxIn := Nat.lt_succ_of_le hlength
  rw [hkeygen, Option.bind_some, symEncrypt_eq hsecrets htext hfits, Option.bind_some]
  simp only [PathsDiffer, List.nodup_cons, List.mem_cons, not_or] at hpaths
  obtain ⟨⟨-, hkeyEnc, -, hkeyCode, -⟩, ⟨hivEnc, -, hivCode, -⟩, ⟨-, hencCode, -⟩, -⟩ := hpaths
  dsimp only
  -- Neither the file of the ciphertext nor that of the code overwrites what is read later.
  refine symDecrypt_eq secrets ?_ ?_ ?_ htext hfits hroom
  · rw [HoldsText, update_of_ne hkeyCode, update_of_ne hkeyEnc]
    exact hsecrets.key
  · rw [HoldsText, update_of_ne hivCode, update_of_ne hivEnc]
    exact hsecrets.iv
  · rw [HoldsText, update_of_ne hencCode, update_self]

/-- The message that `main` encrypts, `cryptoinc`. -/
def cryptoinc : List UInt8 := [99, 114, 121, 112, 116, 111, 105, 110, 99]

/-- Keys of zero bytes. -/
def zeroSecrets : Secrets := ⟨.replicate 32 0, .replicate 16 0, .replicate 32 0⟩

/-- Arrays of zero bytes. -/
def zeroStack : Stack := ⟨.replicate 65 0, .replicate 33 0, .replicate 65 0⟩

/-- The message and the paths of `main`, with keys of zero bytes. -/
theorem symDecrypt_symEncrypt_cryptoinc :
    ((symKeygen (fun _ => none) "./key.data" "./iv.data" zeroSecrets).bind fun files =>
      (symEncrypt (fun _ => Equiv.refl _) (fun _ _ => []) zeroStack files "./key.data" "./iv.data"
        9 (cryptoinc ++ 0 :: []) "./enc.bin").bind
        fun encryption => symDecrypt (fun _ => Equiv.refl _) zeroStack [] encryption.files
          "./key.data" "./iv.data" "./enc.bin" (List.replicate 1024 0)) =
      some (cryptoinc ++ 0 :: (List.replicate 1024 0).drop (cryptoinc.length + 1)) :=
  symDecrypt_symEncrypt _ _ _ _ _ _ _ _ _ _ _ _ _ _ (by decide) (by decide) (by decide)
    (by rw [List.length_replicate]; decide)

end Hack.CryptSym
