import Hack.CFile
import Hack.Cbc
import Hack.CryptSym.HexText

/-!
# Encryption to files and decryption from files

This file embeds `sym_keygen`, `sym_encrypt` and `sym_decrypt` of `crypt-sym/sym.c` for block
chaining. The block cipher is any family of permutations, the authentication code any function,
and the calls on a cipher context are those of a stream of blocks. An access outside of an array
is a fault, and a call that faults has no result. Arrays without an initial value hold arbitrary
bytes.
-/

namespace Hack.CryptSym

open CString CFile Cbc Hex Function

/-- `KEYLEN`. -/
def keyLen : ℕ := 32

/-- `IVLEN`, the length of a block. -/
def ivLen : ℕ := 16

/-- `MAX_IN`. -/
def maxIn : ℕ := 256

/-- `MAX_OUT`. -/
def maxOut : ℕ := 1024

/-- The block ciphers, one for each key. -/
abbrev Aes := List UInt8 → Equiv.Perm (Block ivLen)

/-- The arrays that the texts of the keys are read into, before that. -/
structure Stack where
  keyHex : List.Vector UInt8 (keyLen * 2 + 1)
  ivHex : List.Vector UInt8 (ivLen * 2 + 1)
  authHex : List.Vector UInt8 (keyLen * 2 + 1)

/-- The random bytes of `gen_random_bytestream`. -/
structure Secrets where
  key : List.Vector UInt8 keyLen
  iv : List.Vector UInt8 ivLen
  authKey : List.Vector UInt8 keyLen

/-- `sym_keygen`. -/
def symKeygen (files : Files) (keyPath ivPath : String) (secrets : Secrets) : Option Files := do
  let hexKey ← char2hex keyLen secrets.key.toList
  let hexIv ← char2hex ivLen secrets.iv.toList
  let files ← writeString files keyPath hexKey
  let files ← writeString files ivPath hexIv
  let hexAuthKey ← char2hex keyLen secrets.authKey.toList
  writeString files "./auth_key.data" hexAuthKey

/-- The bytes written at an offset of a block. -/
def write (block : List UInt8) (offset : ℕ) (bytes : List UInt8) : Option (List UInt8) :=
  if offset + bytes.length ≤ block.length then
    some (block.take offset ++ bytes ++ block.drop (offset + bytes.length))
  else none

/-- `EVP_EncryptInit_ex` and `EVP_DecryptInit_ex`, which read a key and a vector of their
lengths. -/
def evpInit (aes : Aes) (key iv : List UInt8) : Option (Equiv.Perm (Block ivLen) × Stream ivLen) :=
  if keyLen ≤ key.length ∧ ivLen ≤ iv.length then
    some (aes (key.take keyLen), ⟨.ofBytes ivLen iv, []⟩)
  else none

/-- What a call of `sym_encrypt` leaves: the files, and the bytes that it has taken for the
ciphertext and for the authentication code. -/
structure Encryption where
  files : Files
  ciphertext : List UInt8
  hmacInput : List UInt8

/-- `sym_encrypt`. -/
def symEncrypt (aes : Aes) (hmac : List UInt8 → List UInt8 → List UInt8) (stack : Stack)
    (files : Files) (keyPath ivPath : String) (_encLen : ℤ) (encMsg : List UInt8)
    (encPath : String) : Option Encryption := do
  let inbuf ← strcpy (List.replicate maxIn 0) encMsg
  let keyHex ← readLine files keyPath stack.keyHex.toList (keyLen * 2 + 1)
  let ivHex ← readLine files ivPath stack.ivHex.toList (ivLen * 2 + 1)
  let authHex ← readLine files "./auth_key.data" stack.authHex.toList (keyLen * 2 + 1)
  let key ← hex2char keyHex
  let iv ← hex2char ivHex
  let auth ← hex2char authHex
  let (cipher, ctx) ← evpInit aes key iv
  -- The whole array is encrypted, whatever the length of the message.
  let (updated, ctx) := ctx.encryptUpdate cipher inbuf
  let outbuf ← write (List.replicate maxOut 0) 0 updated
  let final := ctx.encryptFinal cipher
  let outbuf ← write outbuf updated.length final
  let ciphertextLen := updated.length + final.length
  let outbufHex ← char2hex ciphertextLen outbuf
  let files ← writeString files encPath outbufHex
  -- The length is the one that the last call has stored.
  let outlen := final.length
  if auth.length < keyLen then none
  else
    let result := hmac (auth.take keyLen) (outbuf.take outlen)
    let authResultHex ← char2hex result.length result
    let files ← writeString files "./auth.data" authResultHex
    some ⟨files, outbuf.take ciphertextLen, outbuf.take outlen⟩

/-- `sym_decrypt`: what it leaves in `dec_msg`. The library may use the room of a block behind
its output, where it leaves arbitrary bytes. -/
def symDecrypt (aes : Aes) (stack : Stack) (scratch : List UInt8) (files : Files)
    (keyPath ivPath encPath : String) (decMsg : List UInt8) : Option (List UInt8) := do
  let keyHex ← readLine files keyPath stack.keyHex.toList (keyLen * 2 + 1)
  let ivHex ← readLine files ivPath stack.ivHex.toList (ivLen * 2 + 1)
  let key ← hex2char keyHex
  let iv ← hex2char ivHex
  let inbuf ← readLine files encPath (List.replicate maxOut 0) maxOut
  let inbufBin ← hex2char inbuf
  let (cipher, ctx) ← evpInit aes key iv
  let (updated, ctx) := ctx.decryptUpdate cipher inbufBin
  let outbuf ← write (List.replicate maxOut 0) 0 (updated ++ scratch.take ivLen)
  -- A wrong padding gives no bytes, and the return value is not looked at.
  let final := (ctx.decryptFinal cipher).getD []
  let outbuf ← write outbuf updated.length final
  strcpy decMsg outbuf

/-- The paths of a run are those of different files. -/
def PathsDiffer (keyPath ivPath encPath : String) : Prop :=
  [keyPath, ivPath, encPath, "./auth_key.data", "./auth.data"].Nodup

instance (keyPath ivPath encPath : String) : Decidable (PathsDiffer keyPath ivPath encPath) :=
  inferInstanceAs (Decidable (List.Nodup _))

variable {aes : Aes} {hmac : List UInt8 → List UInt8 → List UInt8} {stack : Stack} {files : Files}
  {keyPath ivPath encPath : String} {secrets : Secrets} {n : ℕ} {path : String}
  {bytes text : List UInt8}

/-- The file of a text of bytes. -/
def HoldsText (files : Files) (path : String) (bytes : List UInt8) : Prop :=
  files path = some (encode 65 bytes)

/-- The files hold the keys. -/
structure HoldsSecrets (files : Files) (keyPath ivPath : String) (secrets : Secrets) : Prop where
  key : HoldsText files keyPath secrets.key.toList
  iv : HoldsText files ivPath secrets.iv.toList
  authKey : HoldsText files "./auth_key.data" secrets.authKey.toList

/-- A call that has a result hands it on. -/
theorem bind_of_eq_some {α β : Type} {call : Option α} {result : α} (h : call = some result)
    (f : α → Option β) : (call >>= f) = f result := by
  rw [h]
  rfl

/-- Writing the text of all bytes of an array. -/
theorem char2hex_all (bytes : List UInt8) :
    char2hex bytes.length bytes = some (encode 65 bytes ++ [0]) := by
  rw [char2hex_eq (Nat.le_refl _), List.take_length]

/-- The text of a key. -/
theorem char2hex_key (bytes : List.Vector UInt8 n) :
    char2hex n bytes.toList = some (encode 65 bytes.toList ++ [0]) := by
  have hall := char2hex_all bytes.toList
  rwa [bytes.toList_length] at hall

/-- Writing the text of bytes to a file. -/
theorem writeString_encode (files : Files) (path : String) (bytes : List UInt8) :
    writeString files path (encode 65 bytes ++ [0]) =
      some (update files path (some (encode 65 bytes))) :=
  writeString_eq files path (zero_notMem_encode bytes) []

/-- A text of bytes that has room in an array is read back from a file, whatever the array held
before. -/
theorem exists_readLine {dest : List UInt8} (hfile : HoldsText files path bytes) (hne : bytes ≠ [])
    {size : ℕ} (hsize : 2 * bytes.length < size) (hdest : 2 * bytes.length < dest.length)
    (hint : size < 2 ^ 31) : ∃ hexarray, readLine files path dest size = some hexarray ∧
      hex2char hexarray = some bytes := by
  refine ⟨_, readLine_eq hfile (newline_notMem_encode bytes) (encode_ne_nil hne) ?_ ?_,
    hex2char_encode (Nat.lt_trans hsize hint) _⟩
  · rwa [length_encode]
  · rwa [length_encode]

/-- A key is read back from its file. -/
theorem exists_readLine_key (hn : 0 < n ∧ n < 2 ^ 29) {bytes : List.Vector UInt8 n}
    (hfile : HoldsText files path bytes.toList) (array : List.Vector UInt8 (n * 2 + 1)) :
    ∃ hexarray, readLine files path array.toList (n * 2 + 1) = some hexarray ∧
      hex2char hexarray = some bytes.toList := by
  have hlength : bytes.toList.length = n := bytes.toList_length
  refine exists_readLine hfile ?_ ?_ ?_ (by omega)
  · exact List.ne_nil_of_length_pos (hlength.symm ▸ hn.1)
  · omega
  · rw [array.toList_length]
    omega

/-- `sym_keygen` writes the keys to their files. -/
theorem exists_symKeygen (files : Files) (secrets : Secrets)
    (hpaths : PathsDiffer keyPath ivPath encPath) :
    ∃ written, symKeygen files keyPath ivPath secrets = some written ∧
      HoldsSecrets written keyPath ivPath secrets := by
  simp only [PathsDiffer, List.nodup_cons, List.mem_cons, not_or] at hpaths
  obtain ⟨⟨hkeyIv, -, hkeyAuth, -⟩, ⟨-, hivAuth, -⟩, -⟩ := hpaths
  simp only [symKeygen, char2hex_key, writeString_encode, Option.bind_eq_bind, Option.bind_some]
  refine ⟨_, rfl, ⟨?_, ?_, ?_⟩⟩
  · rw [HoldsText, update_of_ne hkeyAuth, update_of_ne hkeyIv,
      update_self]
  · rw [HoldsText, update_of_ne hivAuth, update_self]
  · rw [HoldsText, update_self]

/-- The array that a message is encrypted in. -/
def inbufOf (text : List UInt8) : List UInt8 := text ++ List.replicate (maxIn - text.length) 0

/-- The ciphertext of an array: the blocks that it fills and a block of padding. -/
def ciphertextOf (aes : Aes) (secrets : Secrets) (inbuf : List UInt8) : List UInt8 :=
  let iv : Block ivLen := .ofBytes ivLen secrets.iv.toList
  let (updated, ctx) := Stream.encryptUpdate (aes secrets.key.toList) ⟨iv, []⟩ inbuf
  updated ++ ctx.encryptFinal (aes secrets.key.toList)

/-- The message that is copied into the array. -/
theorem strcpy_inbuf (htext : 0 ∉ text) (hlength : text.length < maxIn) (rest : List UInt8) :
    strcpy (List.replicate maxIn 0) (text ++ 0 :: rest) = some (inbufOf text) := by
  rw [strcpy_eq htext (by rwa [List.length_replicate]), inbufOf, List.drop_replicate,
    ← List.replicate_succ, show maxIn - (text.length + 1) + 1 = maxIn - text.length by omega]

/-- The array is always full. -/
theorem length_inbufOf (hlength : text.length < maxIn) : (inbufOf text).length = maxIn := by
  rw [inbufOf, List.length_append, List.length_replicate]
  omega

/-- The key and the vector have the lengths that the cipher reads. -/
theorem evpInit_secrets (secrets : Secrets) : evpInit aes secrets.key.toList secrets.iv.toList =
      some (aes secrets.key.toList, ⟨.ofBytes ivLen secrets.iv.toList, []⟩) := by
  have hkey : secrets.key.toList.length = keyLen := secrets.key.toList_length
  have hiv : secrets.iv.toList.length = ivLen := secrets.iv.toList_length
  rw [evpInit, if_pos ⟨Nat.le_of_eq hkey.symm, Nat.le_of_eq hiv.symm⟩,
    List.take_of_length_le (Nat.le_of_eq hkey)]

/-- Bytes that have room behind others are written there. -/
theorem write_append {rest : List UInt8} (front : List UInt8) (hroom : bytes.length ≤ rest.length) :
    write (front ++ rest) front.length bytes =
      some (front ++ bytes ++ rest.drop bytes.length) := by
  have hfits : front.length + bytes.length ≤ (front ++ rest).length := by
    rw [List.length_append]
    omega
  rw [write, if_pos hfits, List.take_left, ← List.drop_drop, List.drop_left]

/-- Bytes that have room in a block are written at its front. -/
theorem write_zero {block : List UInt8} (hroom : bytes.length ≤ block.length) :
    write block 0 bytes = some (bytes ++ block.drop bytes.length) :=
  write_append [] hroom

section Blocks

variable {cipher : Equiv.Perm (Block ivLen)} {iv : Block ivLen} {inbuf : List UInt8}

/-- The array fills its blocks. -/
theorem encryptUpdate_inbuf (hlength : inbuf.length = maxIn) :
    Stream.encryptUpdate cipher ⟨iv, []⟩ inbuf =
      (encrypt cipher iv inbuf, ⟨lastBlock iv (encrypt cipher iv inbuf), []⟩) := by
  have hfull : inbuf.length / ivLen * ivLen = inbuf.length := by rw [hlength]; rfl
  rw [Stream.encryptUpdate_eq, hfull, List.take_length, List.drop_length]

/-- The blocks of the array have its length. -/
theorem length_encrypt_inbuf (hlength : inbuf.length = maxIn) :
    (encrypt cipher iv inbuf).length = maxIn := by
  rw [length_encrypt, hlength]
  rw [hlength]
  decide

/-- After them a block of padding follows. -/
theorem length_final (prev : Block ivLen) :
    (Stream.encryptFinal cipher ⟨prev, []⟩).length = ivLen :=
  Stream.length_encryptFinal (by decide) (Nat.zero_lt_succ 15)

end Blocks

/-- The ciphertext of an array. -/
theorem ciphertextOf_eq {inbuf : List UInt8} (hlength : inbuf.length = maxIn) :
    let iv : Block ivLen := .ofBytes ivLen secrets.iv.toList
    let blocks := encrypt (aes secrets.key.toList) iv inbuf
    ciphertextOf aes secrets inbuf =
      blocks ++ Stream.encryptFinal (aes secrets.key.toList) ⟨lastBlock iv blocks, []⟩ := by
  rw [ciphertextOf, encryptUpdate_inbuf hlength]

/-- The length of a ciphertext. -/
theorem length_ciphertextOf {inbuf : List UInt8} (hlength : inbuf.length = maxIn) :
    (ciphertextOf aes secrets inbuf).length = maxIn + ivLen := by
  rw [ciphertextOf_eq hlength, List.length_append, length_encrypt_inbuf hlength, length_final]

/-- The blocks and the padding have room in the output array, one behind the other. -/
theorem exists_write_final {blocks final : List UInt8} (hblocks : blocks.length = maxIn)
    (hfinal : final.length = ivLen) :
    ∃ outbuf zeros, write (List.replicate maxOut 0) 0 blocks = some outbuf ∧
      write outbuf blocks.length final = some (blocks ++ final ++ zeros) := by
  have hroom : blocks.length ≤ (List.replicate maxOut (0 : UInt8)).length := by
    rw [hblocks, List.length_replicate]
    decide
  have hroomFinal : final.length ≤
      ((List.replicate maxOut (0 : UInt8)).drop blocks.length).length := by
    rw [hblocks, hfinal, List.length_drop, List.length_replicate]
    decide
  exact ⟨_, _, write_zero hroom, write_append blocks hroomFinal⟩

/-- What `sym_encrypt` leaves for a message that fits: the file of the ciphertext, and an
authentication code of its first block only. -/
theorem symEncrypt_eq (hs : HoldsSecrets files keyPath ivPath secrets) (htext : 0 ∉ text)
    (hlength : text.length < maxIn) (encLen : ℤ) (rest : List UInt8) :
    let ciphertext := ciphertextOf aes secrets (inbufOf text)
    let code := hmac secrets.authKey.toList (ciphertext.take ivLen)
    symEncrypt aes hmac stack files keyPath ivPath encLen (text ++ 0 :: rest) encPath =
      some ⟨update (update files encPath (some (encode 65 ciphertext)))
        "./auth.data" (some (encode 65 code)), ciphertext, ciphertext.take ivLen⟩ := by
  intro ciphertext code
  obtain ⟨keyHex, hkeyRead, hkey⟩ := exists_readLine_key (by decide) hs.key stack.keyHex
  obtain ⟨ivHex, hivRead, hiv⟩ := exists_readLine_key (by decide) hs.iv stack.ivHex
  obtain ⟨authHex, hauthRead, hauth⟩ := exists_readLine_key (by decide) hs.authKey stack.authHex
  have hfull := length_inbufOf hlength
  rw [symEncrypt, bind_of_eq_some (strcpy_inbuf htext hlength rest), bind_of_eq_some hkeyRead,
    bind_of_eq_some hivRead, bind_of_eq_some hauthRead, bind_of_eq_some hkey,
    bind_of_eq_some hiv, bind_of_eq_some hauth, bind_of_eq_some (evpInit_secrets secrets)]
  dsimp only
  rw [encryptUpdate_inbuf hfull]
  dsimp only
  generalize hblocks : encrypt (aes secrets.key.toList) (.ofBytes ivLen secrets.iv.toList)
    (inbufOf text) = blocks
  generalize hfinal : Stream.encryptFinal (aes secrets.key.toList)
    ⟨lastBlock (.ofBytes ivLen secrets.iv.toList) blocks, []⟩ = final
  have hciphertext : ciphertext = blocks ++ final := by
    rw [← hfinal, ← hblocks]
    exact ciphertextOf_eq hfull
  have hblocksLength : blocks.length = maxIn := hblocks ▸ length_encrypt_inbuf hfull
  have hfinalLength : final.length = ivLen := hfinal ▸ length_final _
  have hauthLength : secrets.authKey.toList.length = keyLen := secrets.authKey.toList_length
  obtain ⟨outbuf, zeros, hupdated, hwritten⟩ := exists_write_final hblocksLength hfinalLength
  rw [bind_of_eq_some hupdated, bind_of_eq_some hwritten, ← List.length_append, ← hciphertext]
  have hcode : (ciphertext ++ zeros).take final.length = ciphertext.take ivLen := by
    rw [hfinalLength, List.take_append_of_le_length]
    rw [hciphertext, List.length_append, hfinalLength]
    exact Nat.le_add_left _ _
  have houtbufHex : char2hex ciphertext.length (ciphertext ++ zeros) =
      some (encode 65 ciphertext ++ [0]) := by
    rw [char2hex_eq (by simp), List.take_left]
  rw [bind_of_eq_some houtbufHex, bind_of_eq_some (writeString_encode files encPath ciphertext),
    if_neg (Nat.not_lt_of_ge (Nat.le_of_eq hauthLength.symm)),
    List.take_of_length_le (Nat.le_of_eq hauthLength), hcode, List.take_left]
  exact (bind_of_eq_some (char2hex_all code) _).trans
    (bind_of_eq_some (writeString_encode _ _ code) _)

end Hack.CryptSym
