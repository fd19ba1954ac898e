import Mathlib.Algebra.GroupWithZero.Nat
import Mathlib.Algebra.Order.BigOperators.Group.List
import Mathlib.Algebra.Order.Group.Nat

/-!
# The Internet checksum

The Internet checksum of a header is the complement of the sum of its 16-bit words, added
with an end-around carry. A receiver adds all words with the checksum among them and expects
a sum of all ones. The sum with end-around carry is the ordinary sum reduced modulo
65535, with 65535 instead of 0 unless all words are zero; this makes the position of the
checksum among the words irrelevant.
-/

namespace Hack.InternetChecksum

/-- Addition of 16-bit words with end-around carry. -/
def onesAdd (a b : ℕ) : ℕ := if a + b < 65536 then a + b else a + b - 65535

/-- The 16-bit words of a list of bytes in network order. An odd byte is filled up with a
zero. -/
def words : List UInt8 → List ℕ
  | [] => []
  | [high] => [high.toNat * 256]
  | high :: low :: bytes => (high.toNat * 256 + low.toNat) :: words bytes

/-- The one's complement sum of the words of a list of bytes. -/
def onesSum (bytes : List UInt8) : ℕ := (words bytes).foldl onesAdd 0

/-- The Internet checksum of a list of bytes. -/
def checksum (bytes : List UInt8) : ℕ := 65535 - onesSum bytes

/-- A function that computes the Internet checksum of an IPv4 header, from the bytes at the
header and its length in words of 32 bits, as the two bytes that are stored in the header. -/
def Computes (csum : List UInt8 → ℕ → UInt8 × UInt8) : Prop :=
  ∀ bytes ihl, 5 ≤ ihl → ihl * 4 ≤ bytes.length →
    (csum bytes ihl).1.toNat * 256 + (csum bytes ihl).2.toNat = checksum (bytes.take (ihl * 4))

/-- What is left of a number when carries are added to its low 16 bits. -/
def reduced (n : ℕ) : ℕ := if n = 0 then 0 else (n - 1) % 65535 + 1

/-- Addition with end-around carry is addition. -/
theorem onesAdd_reduced (n : ℕ) {w : ℕ} (hw : w < 65536) :
    onesAdd (reduced n) w = reduced (n + w) := by
  unfold onesAdd reduced
  split_ifs <;> omega

variable {bytes front back : List UInt8} {n : ℕ}

/-- The words of a list of bytes have 16 bits. -/
theorem lt_of_mem_words : ∀ w ∈ words bytes, w < 65536 := by
  induction bytes using words.induct with
  | case1 => simp [words]
  | case2 high =>
    have hhigh := high.toNat_lt
    simp only [words, List.mem_singleton, forall_eq]
    omega
  | case3 high low bytes ih =>
    have hhigh := high.toNat_lt
    have hlow := low.toNat_lt
    simp only [words, List.mem_cons, forall_eq_or_imp]
    exact ⟨by omega, ih⟩

/-- Adding words with end-around carry. -/
theorem foldl_onesAdd {ws : List ℕ} (hws : ∀ w ∈ ws, w < 65536) (n : ℕ) :
    ws.foldl onesAdd (reduced n) = reduced (n + ws.sum) := by
  induction ws generalizing n with
  | nil => rfl
  | cons w ws ih =>
    rw [List.forall_mem_cons] at hws
    rw [List.foldl_cons, onesAdd_reduced n hws.1, ih hws.2, List.sum_cons, Nat.add_assoc]

/-- The one's complement sum as an ordinary sum. -/
theorem onesSum_eq (bytes : List UInt8) : onesSum bytes = reduced (words bytes).sum := by
  rw [onesSum, ← Nat.zero_add (words bytes).sum]
  exact foldl_onesAdd lt_of_mem_words 0

/-- The words of a list that is cut between two words. -/
theorem words_append (heven : front.length % 2 = 0) :
    words (front ++ back) = words front ++ words back := by
  induction front using words.induct with
  | case1 => rfl
  | case2 high => simp at heven
  | case3 high low bytes ih =>
    simp only [List.length_cons] at heven
    simp only [List.cons_append, words, ih (by omega)]

/-- A positive multiple of 65535 is all ones. -/
theorem reduced_mul_add (k : ℕ) : reduced (k * 65535 + 65535) = 65535 := by
  rw [reduced, if_neg (by omega)]
  omega

/-- The numbers that become all ones. -/
theorem reduced_eq_iff : reduced n = 65535 ↔ n ≠ 0 ∧ n % 65535 = 0 := by
  unfold reduced
  split_ifs with hzero
  · simp [hzero]
  · omega

/-- What is left has 16 bits and the same remainder. -/
theorem reduced_le_and_mod (n : ℕ) : reduced n ≤ 65535 ∧ reduced n % 65535 = n % 65535 := by
  unfold reduced
  split_ifs <;> omega

/-- A number and its complement. -/
theorem reduced_add_complement (n : ℕ) : reduced (n + (65535 - reduced n)) = 65535 := by
  cases n with
  | zero => decide
  | succ m =>
    have hreduced : reduced (m + 1) = m % 65535 + 1 := rfl
    have hsum : m + 1 + (65535 - reduced (m + 1)) = m / 65535 * 65535 + 65535 := by
      rw [hreduced]
      omega
    rw [hsum, reduced_mul_add]

/-- **The receiver's check.** A header whose checksum field holds the checksum of the header
with a zero in that field has the sum 65535. -/
theorem onesSum_eq_of_checksum {high low : UInt8} (heven : front.length % 2 = 0)
    (hcheck : high.toNat * 256 + low.toNat = checksum (front ++ 0 :: 0 :: back)) :
    onesSum (front ++ high :: low :: back) = 65535 := by
  have hsum : ∀ a b : UInt8, (words (front ++ a :: b :: back)).sum =
      (words front).sum + (words back).sum + (a.toNat * 256 + b.toNat) := by
    intro a b
    rw [words_append heven, words, List.sum_append, List.sum_cons]
    omega
  rw [checksum, onesSum_eq, hsum] at hcheck
  rw [onesSum_eq, hsum, hcheck]
  exact reduced_add_complement _

/-! ### Words of a little-endian machine -/

/-- The 16-bit words of a list of bytes as a little-endian machine reads them. -/
def hostWords : List UInt8 → List ℕ
  | [] => []
  | [low] => [low.toNat]
  | low :: high :: bytes => (low.toNat + high.toNat * 256) :: hostWords bytes

/-- The words of a list that is cut between two words. -/
theorem hostWords_append (heven : front.length % 2 = 0) :
    hostWords (front ++ back) = hostWords front ++ hostWords back := by
  induction front using hostWords.induct with
  | case1 => rfl
  | case2 low => simp at heven
  | case3 low high bytes ih =>
    simp only [List.length_cons] at heven
    simp only [List.cons_append, hostWords, ih (by omega)]

/-- There is a word for two bytes. -/
theorem length_hostWords (hlength : bytes.length = 2 * n) : (hostWords bytes).length = n := by
  induction bytes using hostWords.induct generalizing n with
  | case1 =>
    rw [List.length_nil] at hlength
    rw [hostWords, List.length_nil]
    omega
  | case2 low =>
    rw [List.length_singleton] at hlength
    omega
  | case3 low high bytes ih =>
    rw [List.length_cons, List.length_cons] at hlength
    rw [hostWords, List.length_cons, ih (show bytes.length = 2 * (n - 1) by omega)]
    omega

/-- The words have 16 bits. -/
theorem lt_of_mem_hostWords : ∀ w ∈ hostWords bytes, w < 65536 := by
  induction bytes using hostWords.induct with
  | case1 => simp [hostWords]
  | case2 low =>
    have hlow := low.toNat_lt
    simp only [hostWords, List.mem_singleton, forall_eq]
    omega
  | case3 low high bytes ih =>
    have hlow := low.toNat_lt
    have hhigh := high.toNat_lt
    simp only [hostWords, List.mem_cons, forall_eq_or_imp]
    exact ⟨by omega, ih⟩

/-- The sum of the words. -/
theorem sum_hostWords_le (bytes : List UInt8) :
    (hostWords bytes).sum ≤ (hostWords bytes).length * 65535 :=
  List.sum_le_card_nsmul _ _ fun w hw => Nat.le_of_lt_succ (lt_of_mem_hostWords w hw)

/-- The one's complement sum of the words, in the order of the machine. -/
theorem foldl_onesAdd_hostWords (bytes : List UInt8) :
    (hostWords bytes).foldl onesAdd 0 = reduced (hostWords bytes).sum := by
  rw [← Nat.zero_add (hostWords bytes).sum]
  exact foldl_onesAdd lt_of_mem_hostWords 0

/-- The order of the bytes is a factor of the sum. -/
theorem sum_hostWords_mod (bytes : List UInt8) :
    (hostWords bytes).sum % 65535 = 256 * (words bytes).sum % 65535 := by
  induction bytes using hostWords.induct with
  | case1 => rfl
  | case2 low =>
    simp only [hostWords, words, List.sum_singleton]
    omega
  | case3 low high bytes ih =>
    simp only [hostWords, words, List.sum_cons]
    omega

/-- Only bytes of zero add up to zero, in both orders. -/
theorem sum_words_eq_zero_iff (bytes : List UInt8) :
    (words bytes).sum = 0 ↔ (hostWords bytes).sum = 0 := by
  induction bytes using hostWords.induct with
  | case1 => exact Iff.rfl
  | case2 low =>
    simp only [hostWords, words, List.sum_singleton]
    omega
  | case3 low high bytes ih =>
    simp only [hostWords, words, List.sum_cons]
    omega

/-- A sum of all ones does not depend on the order of the bytes. -/
theorem onesSum_eq_iff_hostWords (hne : (words bytes).sum ≠ 0) :
    onesSum bytes = 65535 ↔ (hostWords bytes).sum % 65535 = 0 := by
  have hmod := sum_hostWords_mod bytes
  rw [onesSum_eq, reduced_eq_iff]
  omega

/-- Adding the carries of a sum of 32 bits twice leaves 16 bits. -/
theorem carries_eq_reduced (hn : n < 2 ^ 32) :
    (n / 65536 + n % 65536 + (n / 65536 + n % 65536) / 65536) % 65536 = reduced n := by
  generalize hs : n / 65536 + n % 65536 = s
  have hlow : s ≤ 131070 := by omega
  rw [reduced]
  split_ifs with hzero
  · omega
  · -- Adding the high half to the low one takes away a multiple of 65535.
    have hmod : (n - 1) % 65535 = (s - 1) % 65535 := by
      have hn' : n - 1 = s - 1 + 65535 * (n / 65536) := by omega
      rw [hn', Nat.add_mul_mod_self_left]
    have hpos : 0 < s := by omega
    have hcarry : s / 65536 = if s < 65536 then 0 else 1 := by
      split_ifs <;> omega
    rw [hmod, hcarry]
    split_ifs <;> omega

/-- The two bytes of the checksum of a header. -/
def headerChecksum (bytes : List UInt8) (ihl : ℕ) : UInt8 × UInt8 :=
  (.ofNat (checksum (bytes.take (ihl * 4)) / 256), .ofNat (checksum (bytes.take (ihl * 4))))

/-- There is a function that computes the Internet checksum. -/
theorem computes_headerChecksum : Computes headerChecksum := by
  intro bytes ihl _ _
  have hlt : checksum (bytes.take (ihl * 4)) < 65536 := by
    unfold checksum
    omega
  simp only [headerChecksum, UInt8.toNat_ofNat']
  omega

end Hack.InternetChecksum
