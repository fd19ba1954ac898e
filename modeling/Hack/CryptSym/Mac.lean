import Hack.CryptSym.RoundTrip

/-!
# What the authentication code covers

`sym_encrypt` keeps the lengths of both parts of the ciphertext in one variable, and computes the
authentication code with the length of the last part over the beginning of the ciphertext. So the
code covers the first block only, and two messages that agree there have one code.
-/

namespace Hack.CryptSym

open CString CFile Cbc Hex

variable {aes : Aes} {secrets : Secrets} {text text' : List UInt8}
  {message inbuf inbuf' : List UInt8}

/-- The part of a message that is copied as a string. -/
def textOf (message : List UInt8) : List UInt8 := message.takeWhile (· ≠ 0)

/-- A text ends at the first zero byte. -/
theorem zero_notMem_textOf (message : List UInt8) : 0 ∉ textOf message := by
  intro hmem
  exact absurd (List.mem_takeWhile_imp hmem) (by simp)

/-- The text of a message that fits. -/
theorem length_textOf_lt (hlength : message.length ≤ 255) : (textOf message).length < maxIn :=
  Nat.lt_succ_of_le ((List.takeWhile_sublist _).length_le.trans hlength)

/-- A message with a zero byte behind it holds its text as a string. -/
theorem exists_textOf_append (message rest : List UInt8) :
    ∃ rest', message ++ 0 :: rest = textOf message ++ 0 :: rest' := by
  induction message with
  | nil => exact ⟨rest, rfl⟩
  | cons byte message ih =>
    obtain ⟨rest', ih⟩ := ih
    by_cases hbyte : byte = 0
    · exact ⟨message ++ 0 :: rest, by simp [textOf, hbyte]⟩
    · exact ⟨rest', by simpa [textOf, hbyte] using ih⟩

/-- A text is what stands before zero bytes. -/
theorem textOf_append_zeros (htext : 0 ∉ text) (k : ℕ) :
    textOf (text ++ List.replicate k 0) = text := by
  have hpos : ∀ byte ∈ text, decide (byte ≠ 0) = true := fun byte hbyte =>
    decide_eq_true fun h => htext (h ▸ hbyte)
  rw [textOf, List.takeWhile_append_of_pos hpos, List.takeWhile_replicate, if_neg (by simp),
    List.append_nil]

/-- The array shows its text. -/
theorem inbufOf_inj (htext : 0 ∉ text) (htext' : 0 ∉ text') :
    inbufOf text = inbufOf text' ↔ text = text' := by
  refine ⟨fun h => ?_, congrArg inbufOf⟩
  rw [← textOf_append_zeros htext (maxIn - text.length), ← inbufOf, h, inbufOf,
    textOf_append_zeros htext']

/-- The first block of the array is the first bytes of the text and zero bytes. -/
theorem take_inbufOf (text : List UInt8) : (inbufOf text).take ivLen =
      text.take ivLen ++ List.replicate (ivLen - text.length) 0 := by
  have hle : ivLen ≤ maxIn := by decide
  rw [inbufOf, List.take_append, List.take_replicate, Nat.min_eq_left (by omega)]

/-- The first block of the array shows the first bytes of the text. -/
theorem take_inbufOf_inj (htext : 0 ∉ text) (htext' : 0 ∉ text') :
    (inbufOf text).take ivLen = (inbufOf text').take ivLen ↔
      text.take ivLen = text'.take ivLen := by
  have htake : 0 ∉ text.take ivLen := fun h => htext (List.mem_of_mem_take h)
  have htake' : 0 ∉ text'.take ivLen := fun h => htext' (List.mem_of_mem_take h)
  constructor
  · intro h
    rw [take_inbufOf, take_inbufOf] at h
    rw [← textOf_append_zeros htake (ivLen - text.length), h, textOf_append_zeros htake']
  · intro h
    have hlength := congrArg List.length h
    rw [List.length_take, List.length_take] at hlength
    rw [take_inbufOf, take_inbufOf, h, show ivLen - text.length = ivLen - text'.length by omega]

/-- The first block of a ciphertext shows the first block of the array. -/
theorem take_ciphertextOf_inj (hlength : inbuf.length = maxIn) (hlength' : inbuf'.length = maxIn) :
    (ciphertextOf aes secrets inbuf).take ivLen = (ciphertextOf aes secrets inbuf').take ivLen ↔
      inbuf.take ivLen = inbuf'.take ivLen := by
  have hfirst : ∀ {inbuf : List UInt8}, inbuf.length = maxIn →
      (ciphertextOf aes secrets inbuf).take ivLen = (aes secrets.key.toList
        ((Block.ofBytes ivLen inbuf).xor (.ofBytes ivLen secrets.iv.toList))).toList ∧
      (Block.ofBytes ivLen inbuf).toList = inbuf.take ivLen := by
    intro inbuf hlength
    have hle : ivLen ≤ inbuf.length := by
      rw [hlength]
      decide
    rw [ciphertextOf_eq hlength, List.take_append_of_le_length, take_encrypt (by decide) hle]
    · exact ⟨rfl, Block.toList_ofBytes hle⟩
    · rwa [length_encrypt_inbuf hlength, ← hlength]
  obtain ⟨hcode, hblock⟩ := hfirst hlength
  obtain ⟨hcode', hblock'⟩ := hfirst hlength'
  rw [hcode, hcode', ← hblock, ← hblock']
  constructor
  · intro h
    have hmixed := (aes secrets.key.toList).injective (List.Vector.eq _ _ h)
    rw [← Block.xor_xor (Block.ofBytes ivLen inbuf) (.ofBytes ivLen secrets.iv.toList), hmixed,
      Block.xor_xor]
  · intro h
    rw [List.Vector.eq _ _ h]

/-- A ciphertext shows the array. -/
theorem ciphertextOf_inj (hlength : inbuf.length = maxIn) (hlength' : inbuf'.length = maxIn) :
    ciphertextOf aes secrets inbuf = ciphertextOf aes secrets inbuf' ↔ inbuf = inbuf' := by
  refine ⟨fun h => ?_, congrArg _⟩
  obtain ⟨ctx, hupdate, -⟩ := decryptUpdate_ciphertextOf aes secrets hlength
  obtain ⟨ctx', hupdate', -⟩ := decryptUpdate_ciphertextOf aes secrets hlength'
  rw [h, hupdate'] at hupdate
  exact (congrArg Prod.fst hupdate).symm

/-- What `sym_encrypt` takes for the ciphertext of a message and for the code. -/
theorem exists_symEncrypt {hmac : List UInt8 → List UInt8 → List UInt8} {stack : Stack}
    {files : Files} {keyPath ivPath encPath : String}
    (hs : HoldsSecrets files keyPath ivPath secrets) (hlength : message.length ≤ 255) (encLen : ℤ)
    (rest : List UInt8) :
    ∃ encryption, symEncrypt aes hmac stack files keyPath ivPath encLen (message ++ 0 :: rest)
        encPath = some encryption ∧
      encryption.ciphertext = ciphertextOf aes secrets (inbufOf (textOf message)) ∧
      encryption.hmacInput = encryption.ciphertext.take ivLen := by
  obtain ⟨tail, hmessage⟩ := exists_textOf_append message rest
  have hfits := length_textOf_lt hlength
  rw [hmessage]
  exact ⟨_, symEncrypt_eq hs (zero_notMem_textOf message) hfits _ _, rfl, rfl⟩

/-- For two messages that fit, the bytes under the authentication code determine the ciphertext
exactly if the texts are equal whenever their first blocks are. -/
theorem hmacInput_determines_ciphertext_iff (aes : Aes)
    (hmac : List UInt8 → List UInt8 → List UInt8) (stack stack' : Stack) (files : Files)
    (keyPath ivPath encPath : String) (secrets : Secrets) (encLen encLen' : ℤ)
    (message message' rest rest' : List UInt8) (hpaths : PathsDiffer keyPath ivPath encPath)
    (hlength : message.length ≤ 255) (hlength' : message'.length ≤ 255) :
    ∃ written encryption encryption', symKeygen files keyPath ivPath secrets = some written ∧
      symEncrypt aes hmac stack written keyPath ivPath encLen (message ++ 0 :: rest) encPath =
        some encryption ∧
      symEncrypt aes hmac stack' written keyPath ivPath encLen' (message' ++ 0 :: rest') encPath =
        some encryption' ∧
      ((encryption.hmacInput = encryption'.hmacInput →
          encryption.ciphertext = encryption'.ciphertext) ↔
        ((textOf message).take 16 = (textOf message').take 16 →
          textOf message = textOf message')) := by
  obtain ⟨written, hkeygen, hsecrets⟩ := exists_symKeygen files secrets hpaths
  obtain ⟨encryption, hrun, hciphertext, hcode⟩ :=
    exists_symEncrypt hsecrets hlength encLen rest
  obtain ⟨encryption', hrun', hciphertext', hcode'⟩ :=
    exists_symEncrypt hsecrets hlength' encLen' rest'
  refine ⟨written, encryption, encryption', hkeygen, hrun, hrun', ?_⟩
  have htext := zero_notMem_textOf message
  have htext' := zero_notMem_textOf message'
  have hfull := length_inbufOf (length_textOf_lt hlength)
  have hfull' := length_inbufOf (length_textOf_lt hlength')
  rw [hcode, hcode', hciphertext, hciphertext']
  exact imp_congr ((take_ciphertextOf_inj hfull hfull').trans (take_inbufOf_inj htext htext'))
    ((ciphertextOf_inj hfull hfull').trans (inbufOf_inj htext htext'))

/-- Two messages of more than one block: their codes are computed over different bytes. -/
theorem hmacInput_determines_ciphertext_twoBlocks : ∃ written encryption encryption',
      symKeygen (fun _ => none) "./key.data" "./iv.data" zeroSecrets = some written ∧
      symEncrypt (fun _ => Equiv.refl _) (fun _ _ => []) zeroStack written "./key.data" "./iv.data"
        20 (List.replicate 20 65 ++ 0 :: []) "./enc.bin" = some encryption ∧
      symEncrypt (fun _ => Equiv.refl _) (fun _ _ => []) zeroStack written "./key.data" "./iv.data"
        24 (List.replicate 24 66 ++ 0 :: []) "./enc.bin" = some encryption' ∧
      (encryption.hmacInput = encryption'.hmacInput →
        encryption.ciphertext = encryption'.ciphertext) := by
  obtain ⟨written, encryption, encryption', hkeygen, hrun, hrun', hiff⟩ :=
    hmacInput_determines_ciphertext_iff (fun _ => Equiv.refl _) (fun _ _ => []) zeroStack zeroStack
      (fun _ => none) "./key.data" "./iv.data" "./enc.bin" zeroSecrets 20 24
      (List.replicate 20 65) (List.replicate 24 66) [] [] (by decide) (by decide) (by decide)
  exact ⟨written, encryption, encryption', hkeygen, hrun, hrun',
    hiff.mpr fun h => absurd h (by decide)⟩

/-- Sixteen letters, and the same with one more: the authentication code is computed over the
same bytes, and the ciphertexts differ. -/
theorem one_hmacInput_two_ciphertexts : ∃ written encryption encryption',
      symKeygen (fun _ => none) "./key.data" "./iv.data" zeroSecrets = some written ∧
      symEncrypt (fun _ => Equiv.refl _) (fun _ _ => []) zeroStack written "./key.data" "./iv.data"
        16 (List.replicate 16 65 ++ 0 :: []) "./enc.bin" = some encryption ∧
      symEncrypt (fun _ => Equiv.refl _) (fun _ _ => []) zeroStack written "./key.data" "./iv.data"
        17 (List.replicate 17 65 ++ 0 :: []) "./enc.bin" = some encryption' ∧
      encryption.hmacInput = encryption'.hmacInput ∧
      encryption.ciphertext ≠ encryption'.ciphertext := by
  have hpaths : PathsDiffer "./key.data" "./iv.data" "./enc.bin" := by decide
  have hlength : (List.replicate 16 (65 : UInt8)).length ≤ 255 := by decide
  have hlength' : (List.replicate 17 (65 : UInt8)).length ≤ 255 := by decide
  obtain ⟨written, hkeygen, hsecrets⟩ := exists_symKeygen (fun _ => none) zeroSecrets hpaths
  obtain ⟨encryption, hrun, hciphertext, hcode⟩ := exists_symEncrypt hsecrets hlength 16 []
  obtain ⟨encryption', hrun', hciphertext', hcode'⟩ := exists_symEncrypt hsecrets hlength' 17 []
  refine ⟨written, encryption, encryption', hkeygen, hrun, hrun', ?_, ?_⟩
  · rw [hcode, hcode', hciphertext, hciphertext',
      take_ciphertextOf_inj (length_inbufOf (length_textOf_lt hlength))
        (length_inbufOf (length_textOf_lt hlength')),
      take_inbufOf_inj (zero_notMem_textOf _) (zero_notMem_textOf _)]
    decide
  · rw [hciphertext, hciphertext', Ne, ciphertextOf_inj (length_inbufOf (length_textOf_lt hlength))
        (length_inbufOf (length_textOf_lt hlength')),
      inbufOf_inj (zero_notMem_textOf _) (zero_notMem_textOf _)]
    decide

end Hack.CryptSym
