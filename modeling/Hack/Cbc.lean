import Mathlib.Data.Vector.Zip

/-!
# Cipher block chaining

Textbook cipher block chaining over an arbitrary permutation of blocks. The chain is defined
for any type of blocks with an operation that undoes itself. On bytes, a block is a vector, and
a message is cut into blocks. A stream takes a message in pieces, keeps what does not fill a
block, and pads the rest at the end.
-/

namespace Hack.Cbc

section Chain

variable {B : Type*} (xor : B → B → B) (cipher : Equiv.Perm B)

/-- Each block is combined with the ciphertext before it and encrypted. -/
def encryptBlocks (prev : B) : List B → List B
  | [] => []
  | p :: ps => cipher (xor p prev) :: encryptBlocks (cipher (xor p prev)) ps

/-- Each block is decrypted and combined with the ciphertext before it. -/
def decryptBlocks (prev : B) : List B → List B
  | [] => []
  | c :: cs => xor (cipher.symm c) prev :: decryptBlocks c cs

variable {xor cipher}

/-- Decryption inverts encryption. -/
theorem decryptBlocks_encryptBlocks (hxor : ∀ a b, xor (xor a b) b = a) (prev : B)
    (blocks : List B) :
    decryptBlocks xor cipher prev (encryptBlocks xor cipher prev blocks) = blocks := by
  induction blocks generalizing prev with
  | nil => rfl
  | cons p ps ih => rw [encryptBlocks, decryptBlocks, ih, Equiv.symm_apply_apply, hxor]

/-- Encryption keeps the number of blocks. -/
theorem length_encryptBlocks (prev : B) (blocks : List B) :
    (encryptBlocks xor cipher prev blocks).length = blocks.length := by
  induction blocks generalizing prev with
  | nil => rfl
  | cons p ps ih => rw [encryptBlocks, List.length_cons, List.length_cons, ih]

end Chain

/-- A block of bytes. -/
abbrev Block (n : ℕ) := List.Vector UInt8 n

variable {n : ℕ}

/-- The bytes of a block are combined one by one. -/
def Block.xor (a b : Block n) : Block n := List.Vector.zipWith (· ^^^ ·) a b

/-- Combining twice with the same block changes nothing. -/
theorem Block.xor_xor (a b : Block n) : (a.xor b).xor b = a := by
  refine List.Vector.ext fun i => ?_
  rw [Block.xor, Block.xor, List.Vector.zipWith_get, List.Vector.zipWith_get, UInt8.xor_assoc,
    UInt8.xor_self, UInt8.xor_zero]

/-- The first bytes of a message as a block. Missing bytes are zero. -/
def Block.ofBytes (n : ℕ) (bytes : List UInt8) : Block n :=
  ⟨(bytes ++ List.replicate n 0).take n, by simp⟩

/-- A message as a number of blocks. -/
def takeBlocks (n : ℕ) : ℕ → List UInt8 → List (Block n)
  | 0, _ => []
  | k + 1, bytes => .ofBytes n bytes :: takeBlocks n k (bytes.drop n)

/-- The bytes of blocks. -/
def bytesOf (blocks : List (Block n)) : List UInt8 := blocks.flatMap List.Vector.toList

/-- A block has all bytes of a message that is long enough. -/
theorem Block.toList_ofBytes {bytes : List UInt8} (h : n ≤ bytes.length) :
    (Block.ofBytes n bytes).toList = bytes.take n :=
  List.take_append_of_le_length h

/-- The number of bytes of blocks. -/
theorem length_bytesOf (blocks : List (Block n)) : (bytesOf blocks).length = blocks.length * n := by
  induction blocks with
  | nil => simp [bytesOf]
  | cons b bs ih =>
    rw [bytesOf, List.flatMap_cons, List.length_append, ← bytesOf, ih, List.Vector.toList_length,
      List.length_cons, Nat.add_mul, Nat.one_mul, Nat.add_comm]

/-- The number of blocks. -/
theorem length_takeBlocks (k : ℕ) (bytes : List UInt8) : (takeBlocks n k bytes).length = k := by
  induction k generalizing bytes with
  | zero => rfl
  | succ k ih => rw [takeBlocks, List.length_cons, ih]

/-- Cutting a message into blocks loses nothing if it fills them. -/
theorem bytesOf_takeBlocks {k : ℕ} {bytes : List UInt8} (h : bytes.length = k * n) :
    bytesOf (takeBlocks n k bytes) = bytes := by
  induction k generalizing bytes with
  | zero =>
    rw [Nat.zero_mul] at h
    rw [List.eq_nil_of_length_eq_zero h]
    rfl
  | succ k ih =>
    rw [Nat.add_mul, Nat.one_mul] at h
    rw [takeBlocks, bytesOf, List.flatMap_cons, ← bytesOf, Block.toList_ofBytes (by omega),
      ih (by rw [List.length_drop]; omega), List.take_append_drop]

/-- The blocks of the bytes of blocks. -/
theorem takeBlocks_bytesOf (blocks : List (Block n)) :
    takeBlocks n blocks.length (bytesOf blocks) = blocks := by
  induction blocks with
  | nil => rfl
  | cons b bs ih =>
    have hlength : b.toList.length = n := b.toList_length
    rw [List.length_cons, takeBlocks, bytesOf, List.flatMap_cons, ← bytesOf,
      List.drop_left' hlength, ih]
    congr 1
    refine List.Vector.eq _ _ ?_
    rw [Block.toList_ofBytes (by rw [List.length_append]; omega), List.take_left' hlength]

section Bytes

variable (cipher : Equiv.Perm (Block n))

/-- Encryption of a message that fills its blocks. -/
def encrypt (iv : Block n) (bytes : List UInt8) : List UInt8 :=
  bytesOf (encryptBlocks Block.xor cipher iv (takeBlocks n (bytes.length / n) bytes))

/-- Decryption of a ciphertext that fills its blocks. -/
def decrypt (iv : Block n) (bytes : List UInt8) : List UInt8 :=
  bytesOf (decryptBlocks Block.xor cipher iv (takeBlocks n (bytes.length / n) bytes))

variable {cipher} {iv : Block n} {bytes : List UInt8}

/-- A ciphertext is as long as its message. -/
theorem length_encrypt (h : n ∣ bytes.length) :
    (encrypt cipher iv bytes).length = bytes.length := by
  rw [encrypt, length_bytesOf, length_encryptBlocks, length_takeBlocks, Nat.div_mul_cancel h]

/-- Decryption inverts encryption. -/
theorem decrypt_encrypt (h : n ∣ bytes.length) :
    decrypt cipher iv (encrypt cipher iv bytes) = bytes := by
  have hblocks : (encrypt cipher iv bytes).length / n =
      (encryptBlocks Block.xor cipher iv (takeBlocks n (bytes.length / n) bytes)).length := by
    rw [length_encrypt h, length_encryptBlocks, length_takeBlocks]
  rw [decrypt, hblocks, encrypt, takeBlocks_bytesOf, decryptBlocks_encryptBlocks Block.xor_xor,
    bytesOf_takeBlocks (Nat.div_mul_cancel h).symm]

/-- The first block of a ciphertext. -/
theorem take_encrypt (hn : 0 < n) (h : n ≤ bytes.length) :
    (encrypt cipher iv bytes).take n = (cipher ((Block.ofBytes n bytes).xor iv)).toList := by
  obtain ⟨k, hk⟩ : ∃ k, bytes.length / n = k + 1 :=
    Nat.exists_eq_add_one.mpr (Nat.div_pos h hn)
  rw [encrypt, hk, takeBlocks, encryptBlocks, bytesOf, List.flatMap_cons,
    List.take_left' (List.Vector.toList_length _)]

end Bytes

/-- The padding of a message: each byte of it is the length of the padding. -/
def pad (n : ℕ) (bytes : List UInt8) : List UInt8 :=
  bytes ++ List.replicate (n - bytes.length % n) (UInt8.ofNat (n - bytes.length % n))

/-- The message without its padding, `none` if that is not a padding. -/
def unpad (n : ℕ) (bytes : List UInt8) : Option (List UInt8) :=
  match bytes.getLast? with
  | none => none
  | some last =>
    let size := bytes.length - last.toNat
    if 0 < last.toNat ∧ last.toNat ≤ n ∧
        bytes.drop size = List.replicate last.toNat last then some (bytes.take size)
    else none

/-- A padded message fills its blocks. -/
theorem dvd_length_pad (hn : 0 < n) (bytes : List UInt8) : n ∣ (pad n bytes).length := by
  have hlt := Nat.mod_lt bytes.length hn
  have hdiv := Nat.div_add_mod bytes.length n
  refine ⟨bytes.length / n + 1, ?_⟩
  rw [pad, List.length_append, List.length_replicate, Nat.mul_add, Nat.mul_one]
  omega

/-- The padding can be removed. -/
theorem unpad_pad (hn : 0 < n) (hsize : n < 256) (bytes : List UInt8) :
    unpad n (pad n bytes) = some bytes := by
  have hlt := Nat.mod_lt bytes.length hn
  obtain ⟨k, hk, hpos, hle⟩ : ∃ k, n - bytes.length % n = k ∧ 0 < k ∧ k ≤ n := ⟨_, rfl, by omega⟩
  have hbyte : (UInt8.ofNat k).toNat = k := UInt8.toNat_ofNat_of_lt' (by
    rw [UInt8.size]
    omega)
  have hlast : (bytes ++ List.replicate k (UInt8.ofNat k)).getLast? = some (UInt8.ofNat k) := by
    rw [List.getLast?_append, List.getLast?_replicate, if_neg (Nat.ne_of_gt hpos)]
    rfl
  have hlength : (bytes ++ List.replicate k (UInt8.ofNat k)).length - k = bytes.length := by
    rw [List.length_append, List.length_replicate, Nat.add_sub_cancel]
  rw [pad, hk, unpad, hlast]
  simp only [hbyte, hlength, List.drop_left, List.take_left]
  rw [if_pos ⟨hpos, hle, trivial⟩]

/-- A stream: the ciphertext block before the next one, and bytes that are still to be
processed. -/
structure Stream (n : ℕ) where
  prev : Block n
  buffered : List UInt8

/-- The last block of a ciphertext that continues another one. -/
def lastBlock (prev : Block n) (bytes : List UInt8) : Block n :=
  if bytes = [] then prev else .ofBytes n (bytes.drop (bytes.length - n))

namespace Stream

variable (cipher : Equiv.Perm (Block n))

/-- Encryption of a piece of a message, as far as it fills blocks. -/
def encryptUpdate (s : Stream n) (input : List UInt8) : List UInt8 × Stream n :=
  let data := s.buffered ++ input
  let size := data.length / n * n
  let out := encrypt cipher s.prev (data.take size)
  (out, ⟨lastBlock s.prev out, data.drop size⟩)

/-- Encryption of the padded rest. -/
def encryptFinal (s : Stream n) : List UInt8 := encrypt cipher s.prev (pad n s.buffered)

/-- Decryption of a piece of a ciphertext. The last block is kept, since it may be the one with
the padding. -/
def decryptUpdate (s : Stream n) (input : List UInt8) : List UInt8 × Stream n :=
  let data := s.buffered ++ input
  let size := (data.length - 1) / n * n
  (decrypt cipher s.prev (data.take size), ⟨lastBlock s.prev (data.take size), data.drop size⟩)

/-- Decryption of the last block, without its padding. -/
def decryptFinal (s : Stream n) : Option (List UInt8) :=
  if s.buffered.length = n then unpad n (decrypt cipher s.prev s.buffered) else none

variable {cipher} {iv : Block n} {message : List UInt8}

/-- The ciphertext of a message in one piece: the blocks that it fills, and the padded rest. -/
theorem encryptUpdate_eq (iv : Block n) (message : List UInt8) :
    encryptUpdate cipher ⟨iv, []⟩ message =
      (encrypt cipher iv (message.take (message.length / n * n)),
        ⟨lastBlock iv (encrypt cipher iv (message.take (message.length / n * n))),
          message.drop (message.length / n * n)⟩) := rfl

/-- The padded rest of a message is one block. -/
theorem length_encryptFinal (hn : 0 < n) {s : Stream n} (hrest : s.buffered.length < n) :
    (encryptFinal cipher s).length = n := by
  rw [encryptFinal, length_encrypt (dvd_length_pad hn _), pad, List.length_append,
    List.length_replicate, Nat.mod_eq_of_lt hrest]
  omega

/-- A stream decrypts what a stream has encrypted: first the blocks that the message fills, and
in the end the rest. -/
theorem decrypt_encrypt (hn : 0 < n) (hsize : n < 256) (iv : Block n) (message : List UInt8) :
    let encrypted := encryptUpdate cipher ⟨iv, []⟩ message
    let decrypted := decryptUpdate cipher ⟨iv, []⟩
      (encrypted.1 ++ encryptFinal cipher encrypted.2)
    decrypted.1 = message.take (message.length / n * n) ∧
      decryptFinal cipher decrypted.2 = some (message.drop (message.length / n * n)) := by
  rw [encryptUpdate_eq]
  dsimp only
  have hle : message.length / n * n ≤ message.length := Nat.div_mul_le_self _ _
  have hlength : (message.take (message.length / n * n)).length = message.length / n * n :=
    List.length_take_of_le hle
  have hdvd : n ∣ (message.take (message.length / n * n)).length := by
    rw [hlength]
    exact Nat.dvd_mul_left _ _
  have hout : (encrypt cipher iv (message.take (message.length / n * n))).length =
      message.length / n * n := (length_encrypt hdvd).trans hlength
  have hrest : (message.drop (message.length / n * n)).length < n := by
    have hmod := Nat.mod_lt message.length hn
    have hdiv := Nat.div_add_mod' message.length n
    rw [List.length_drop]
    omega
  generalize hs : (⟨lastBlock iv (encrypt cipher iv (message.take (message.length / n * n))),
    message.drop (message.length / n * n)⟩ : Stream n) = s
  have hbuffered : s.buffered = message.drop (message.length / n * n) := by rw [← hs]
  have hfinal : (encryptFinal cipher s).length = n := length_encryptFinal hn (hbuffered ▸ hrest)
  -- Decryption keeps exactly the last block.
  have hkept : ((encrypt cipher iv (message.take (message.length / n * n)) ++
      encryptFinal cipher s).length - 1) / n * n = message.length / n * n := by
    rw [List.length_append, hout, hfinal, Nat.add_sub_assoc hn, Nat.mul_comm, Nat.mul_comm _ n,
      Nat.mul_add_div hn, Nat.div_eq_of_lt (Nat.sub_lt hn Nat.one_pos), Nat.add_zero]
  simp only [decryptUpdate, List.nil_append, hkept]
  rw [List.take_left' hout, List.drop_left' hout]
  refine ⟨Cbc.decrypt_encrypt hdvd, ?_⟩
  have hprev : lastBlock iv (encrypt cipher iv (message.take (message.length / n * n))) =
      s.prev := by rw [← hs]
  rw [decryptFinal, if_pos hfinal, hprev, encryptFinal,
    Cbc.decrypt_encrypt (dvd_length_pad hn _), unpad_pad hn hsize, hbuffered]

end Stream

end Hack.Cbc
