import Hack.HexTool

/-!
# The pair of characters of a decoded byte

Each iteration of `hex2bin` reads a number from two characters of its string. A conversion that
fails leaves the number of the iteration before, and white space is skipped into the characters
that follow. So a byte of the result does not always depend on its own two characters only. This
file finds the strings and indices for which it does.
-/

namespace Hack.HexTool

open CString Hex CryptSym

/-- The byte at an index of a decoded string, with what stands in memory behind the string. -/
def byteAt (s rest : List UInt8) (i : ℕ) : Option UInt8 :=
  (hex2bin (s ++ 0 :: rest)).bind fun bytes => bytes[i]?

/-- Every string of the same length with the same two characters is decoded to the same byte. -/
def OwnByte (s : List UInt8) (i : ℕ) : Prop :=
  ∀ t rest rest', t.length = s.length → 0 ∉ t → t[2 * i]? = s[2 * i]? →
    t[2 * i + 1]? = s[2 * i + 1]? →
      ∃ byte, byteAt s rest i = some byte ∧ byteAt t rest' i = some byte

/-- Two characters that are read as a number: a digit with any other character, or a sign and a
digit. -/
def Converts (a b : UInt8) : Prop :=
  (value a).isSome ∨ (a = 43 ∨ a = 45) ∧ (value b).isSome

/-- A character that ends the conversion: no white space, no digit and no sign. -/
def Stops (b : UInt8) : Prop := isSpace b = false ∧ value b = none ∧ b ≠ 43 ∧ b ≠ 45

/-- The characters `a` and `b` at an index fix the byte of a string with a given length. A
conversion that fails leaves zero in the first iteration. -/
def Fixes (length i : ℕ) (a b : UInt8) : Prop :=
  if isSpace a then
    if length = 2 * i + 2 then i = 0 ∨ (value b).isSome else i = 0 ∧ Stops b
  else i = 0 ∨ Converts a b

instance (a b : UInt8) : Decidable (Converts a b) := inferInstanceAs (Decidable (_ ∨ _))

instance (b : UInt8) : Decidable (Stops b) := inferInstanceAs (Decidable (_ ∧ _))

instance (length i : ℕ) (a b : UInt8) : Decidable (Fixes length i a b) := by
  delta Fixes
  infer_instance

variable {s t : List UInt8} {a b : UInt8} {i : ℕ}

/-! ### The conversion of two characters -/

/-- White space is skipped. -/
theorem scanByte_space (ha : isSpace a = true) (text : List UInt8) :
    scanByte (a :: text) = scanByte text := by
  rw [scanByte, List.dropWhile_cons_of_pos ha, scanByte]

/-- Other characters are read without those behind. -/
theorem scanByte_pair (ha : isSpace a = false) (text : List UInt8) :
    scanByte (a :: b :: text) = scanByte [a, b] := by
  rw [scanByte, scanByte, List.dropWhile_cons_of_neg (Bool.eq_false_iff.mp ha),
    List.dropWhile_cons_of_neg (Bool.eq_false_iff.mp ha)]

theorem isSome_scanByte_iff (ha : isSpace a = false) : (scanByte [a, b]).isSome ↔ Converts a b := by
  rw [scanByte, List.dropWhile_cons_of_neg (Bool.eq_false_iff.mp ha), Converts]
  by_cases hplus : a = 43
  · subst hplus
    simp [show value 43 = none from rfl]
  by_cases hminus : a = 45
  · subst hminus
    simp [show value 45 = none from rfl]
  simp only [hplus, hminus, if_false]
  cases value a with
  | none => simp
  | some d => cases value b <;> simp

/-- A single character. -/
theorem scanByte_singleton (b : UInt8) : scanByte [b] = (value b).map UInt8.ofNat := by
  cases hspace : isSpace b with
  | true =>
    rw [scanByte_space hspace]
    cases hvalue : value b with
    | none => rfl
    | some d => exact absurd hspace (Bool.eq_false_iff.mp (value_plain hvalue).1)
  | false => rw [scanByte, List.dropWhile_cons_of_neg (Bool.eq_false_iff.mp hspace)]

/-- Nothing is read from a character that ends the conversion. -/
theorem scanByte_of_stops (hb : Stops b) (text : List UInt8) : scanByte (b :: text) = none := by
  obtain ⟨hspace, hvalue, hplus, hminus⟩ := hb
  rw [scanByte, List.dropWhile_cons_of_neg (Bool.eq_false_iff.mp hspace)]
  cases text with
  | nil => simp [hvalue]
  | cons q text => simp [hvalue, hplus, hminus]

/-- The characters behind any other one make a difference. -/
theorem exists_scanByte_ne (hb : ¬Stops b) (text text' : List UInt8) :
    ∃ x y, scanByte (b :: 48 :: 48 :: text) = some x ∧
      scanByte (b :: 49 :: 49 :: text') = some y ∧ x ≠ y := by
  have hzero : value 48 = some 0 := rfl
  have hone : value 49 = some 1 := rfl
  by_cases hspace : isSpace b = true
  · rw [scanByte_space hspace, scanByte_space hspace]
    exact ⟨_, _, scanByte_digits hzero hzero text, scanByte_digits hone hone text', by decide⟩
  cases hvalue : value b with
  | some d =>
    refine ⟨_, _, scanByte_digits hvalue hzero _, scanByte_digits hvalue hone _, ?_⟩
    have hd := (eq_digit_of_value hvalue).1
    intro heq
    have hnat := congrArg UInt8.toNat heq
    rw [UInt8.toNat_ofNat', UInt8.toNat_ofNat'] at hnat
    omega
  | none =>
    rw [Bool.not_eq_true] at hspace
    rw [scanByte_pair hspace (48 :: text), scanByte_pair hspace (49 :: text')]
    by_cases hplus : b = 43
    · subst hplus
      exact ⟨0, 1, by decide, by decide, by decide⟩
    · have hminus : b = 45 := by
        by_contra hminus
        exact hb ⟨hspace, hvalue, hplus, hminus⟩
      subst hminus
      exact ⟨0, 255, by decide, by decide, by decide⟩

/-! ### The loop -/

/-- The number that was read last when an iteration begins. -/
def kept : ℕ → UInt8 → List UInt8 → UInt8
  | 0, n, _ => n
  | i + 1, n, text => kept i ((scanByte text).getD n) (text.drop 2)

theorem kept_succ (i : ℕ) (n : UInt8) (text : List UInt8) :
    kept (i + 1) n text = (scanByte (text.drop (2 * i))).getD (kept i n text) := by
  induction i generalizing n text with
  | zero => rfl
  | succ i ih =>
    have hdrop : 2 + 2 * i = 2 * (i + 1) := by omega
    rw [kept, ih, List.drop_drop, hdrop, kept]

theorem getElem?_hex2charFrom {k : ℕ} (hi : i < k) (n : UInt8) (text : List UInt8) :
    (hex2charFrom k n text)[i]? = some (kept (i + 1) n text) := by
  induction i generalizing k n text with
  | zero =>
    obtain ⟨k, rfl⟩ := Nat.exists_eq_add_of_lt hi
    rw [Nat.zero_add, hex2charFrom]
    rfl
  | succ i ih =>
    obtain ⟨k, rfl⟩ : ∃ l, k = l + 1 := ⟨k - 1, by omega⟩
    rw [hex2charFrom, List.getElem?_cons_succ, ih (by omega)]
    rfl

/-- The byte at an index is the number that was read last. -/
theorem byteAt_eq_some_iff (hzero : 0 ∉ s) (rest : List UInt8) {byte : UInt8} :
    byteAt s rest i = some byte ↔ (i : ℤ) < outstrlen s ∧ kept (i + 1) 0 s = byte := by
  have hlength := length_hex2charFrom (outstrlen s).toNat 0 s
  rw [byteAt, hex2bin, hex2char, cstr_append hzero, Option.bind_some]
  split_ifs with hsign
  · refine iff_of_false (Option.some_ne_none byte).symm ?_
    omega
  · rw [Option.bind_some]
    by_cases hi : (i : ℤ) < outstrlen s
    · rw [getElem?_hex2charFrom (by omega), and_iff_right hi, Option.some.injEq]
    · rw [List.getElem?_eq_none (by omega)]
      exact iff_of_false (Option.some_ne_none byte).symm fun h => hi h.1

/-- What the loop reads at an index whose two characters are known. -/
theorem kept_succ_eq (ha : s[2 * i]? = some a) (hb : s[2 * i + 1]? = some b) :
    kept (i + 1) 0 s = (scanByte (a :: b :: s.drop (2 * i + 2))).getD (kept i 0 s) := by
  obtain ⟨hlt, rfl⟩ := List.getElem?_eq_some_iff.mp hb
  obtain ⟨hlt', rfl⟩ := List.getElem?_eq_some_iff.mp ha
  rw [kept_succ, List.drop_eq_getElem_cons hlt', List.drop_eq_getElem_cons hlt]

/-- The number that two equal digits leave. -/
theorem kept_replicate {d : UInt8} {v : ℕ} (hd : value d = some v) (hi : i ≠ 0)
    (back : List UInt8) :
    kept i 0 (List.replicate (2 * i) d ++ back) = UInt8.ofNat (v * 16 + v) := by
  obtain ⟨j, rfl⟩ := Nat.exists_eq_succ_of_ne_zero hi
  have hdrop : (List.replicate (2 * (j + 1)) d ++ back).drop (2 * j) = d :: d :: back := by
    rw [Nat.mul_add_one, ← List.replicate_append_replicate, List.append_assoc,
      List.drop_left' List.length_replicate]
    rfl
  rw [Nat.succ_eq_add_one, kept_succ, hdrop, scanByte_digits hd hd, Option.getD_some]

/-! ### Bytes that depend on their own characters -/

/-- A pair that fixes its byte is read in the same way in both strings, or leaves the zero of the
first iteration. -/
theorem Fixes.scanByte_eq {length : ℕ} {x y : List UInt8} (h : Fixes length i a b)
    (hx : 2 * i + 2 + x.length = length) (hy : x.length = y.length) :
    scanByte (a :: b :: x) = scanByte (a :: b :: y) ∧
      (i = 0 ∨ (scanByte (a :: b :: x)).isSome) := by
  unfold Fixes at h
  split_ifs at h with hspace hlast
  · obtain rfl : x = [] := List.eq_nil_of_length_eq_zero (by omega)
    obtain rfl : y = [] := List.eq_nil_of_length_eq_zero (by rw [← hy]; rfl)
    rw [scanByte_space hspace, scanByte_singleton, Option.isSome_map]
    exact ⟨rfl, h⟩
  · rw [scanByte_space hspace, scanByte_space hspace, scanByte_of_stops h.2, scanByte_of_stops h.2]
    exact ⟨rfl, .inl h.1⟩
  · rw [Bool.not_eq_true] at hspace
    rw [scanByte_pair hspace x, scanByte_pair hspace y, isSome_scanByte_iff hspace]
    exact ⟨rfl, h⟩

/-- Two strings with a pair that fixes its byte. -/
theorem Fixes.kept_eq (h : Fixes s.length i a b) (hlength : t.length = s.length)
    (ha : s[2 * i]? = some a) (hb : s[2 * i + 1]? = some b) (ha' : t[2 * i]? = some a)
    (hb' : t[2 * i + 1]? = some b) : kept (i + 1) 0 t = kept (i + 1) 0 s := by
  obtain ⟨hlt, -⟩ := List.getElem?_eq_some_iff.mp hb
  have hrest : (s.drop (2 * i + 2)).length = (t.drop (2 * i + 2)).length := by
    rw [List.length_drop, List.length_drop, hlength]
  obtain ⟨hscan, hread⟩ := h.scanByte_eq (by rw [List.length_drop]; omega) hrest
  rw [kept_succ_eq ha hb, kept_succ_eq ha' hb', ← hscan]
  rcases hread with rfl | hsome
  · rfl
  · obtain ⟨byte, hbyte⟩ := Option.isSome_iff_exists.mp hsome
    rw [hbyte, Option.getD_some, Option.getD_some]

/-- The pair with two other characters around it. -/
def around (length i : ℕ) (a b before behind : UInt8) : List UInt8 :=
  List.replicate (2 * i) before ++ a :: b :: List.replicate (length - (2 * i + 2)) behind

theorem length_around {length : ℕ} (hlength : 2 * i + 2 ≤ length) (a b before behind : UInt8) :
    (around length i a b before behind).length = length := by
  rw [around, List.length_append, List.length_cons, List.length_cons, List.length_replicate,
    List.length_replicate]
  omega

theorem drop_around (length i : ℕ) (a b before behind : UInt8) :
    (around length i a b before behind).drop (2 * i) =
      a :: b :: List.replicate (length - (2 * i + 2)) behind :=
  List.drop_left' List.length_replicate

/-- A string whose byte depends on its own characters has the byte of all these strings. -/
theorem OwnByte.kept_around (h : OwnByte s i) (hzero : 0 ∉ s) (ha : s[2 * i]? = some a)
    (hb : s[2 * i + 1]? = some b) {before behind : UInt8} (hbefore : before ≠ 0)
    (hbehind : behind ≠ 0) :
    kept (i + 1) 0 (around s.length i a b before behind) = kept (i + 1) 0 s := by
  obtain ⟨hlt, -⟩ := List.getElem?_eq_some_iff.mp hb
  have hlength := length_around (show 2 * i + 2 ≤ s.length from hlt) a b before behind
  have hdrop := drop_around s.length i a b before behind
  have hzero' : 0 ∉ around s.length i a b before behind := by
    intro hmem
    rcases List.mem_append.mp hmem with hmem | hmem
    · exact hbefore (List.eq_of_mem_replicate hmem).symm
    · rcases List.mem_cons.mp hmem with rfl | hmem
      · exact hzero (List.mem_of_getElem? ha)
      rcases List.mem_cons.mp hmem with rfl | hmem
      · exact hzero (List.mem_of_getElem? hb)
      · exact hbehind (List.eq_of_mem_replicate hmem).symm
  have hget (j : ℕ) : (around s.length i a b before behind)[2 * i + j]? =
      (a :: b :: List.replicate (s.length - (2 * i + 2)) behind)[j]? := by
    rw [← hdrop, List.getElem?_drop]
  obtain ⟨byte, hbyte, hbyte'⟩ := h _ [] [] hlength hzero' ((hget 0).trans ha.symm)
    ((hget 1).trans hb.symm)
  rw [((byteAt_eq_some_iff hzero []).mp hbyte).2, ((byteAt_eq_some_iff hzero' []).mp hbyte').2]

/-- A pair that is not read shows the number before it, unless it is the first. -/
theorem OwnByte.isSome_scanByte (h : OwnByte s i) (hzero : 0 ∉ s) (ha : s[2 * i]? = some a)
    (hb : s[2 * i + 1]? = some b) :
    i = 0 ∨ (scanByte (a :: b :: List.replicate (s.length - (2 * i + 2)) 48)).isSome := by
  by_contra hnot
  rw [not_or, Bool.not_eq_true, Option.isSome_eq_false_iff, Option.isNone_iff_eq_none] at hnot
  obtain ⟨hi, hscan⟩ := hnot
  have hsame (before : UInt8) (hbefore : before ≠ 0) :=
    h.kept_around hzero ha hb hbefore (show (48 : UInt8) ≠ 0 by decide)
  simp only [kept_succ, drop_around, hscan, Option.getD_none] at hsame
  have hne := (hsame 48 (by decide)).trans (hsame 49 (by decide)).symm
  rw [around, around, kept_replicate (show value 48 = some 0 from rfl) hi,
    kept_replicate (show value 49 = some 1 from rfl) hi] at hne
  exact absurd hne (by decide)

/-- What is read does not depend on the characters behind the pair. -/
theorem OwnByte.scanByte_eq (h : OwnByte s i) (hzero : 0 ∉ s) (ha : s[2 * i]? = some a)
    (hb : s[2 * i + 1]? = some b) {x y : UInt8}
    (hx : scanByte (a :: b :: List.replicate (s.length - (2 * i + 2)) 48) = some x)
    (hy : scanByte (a :: b :: List.replicate (s.length - (2 * i + 2)) 49) = some y) : x = y := by
  have hsame (behind : UInt8) (hbehind : behind ≠ 0) :=
    h.kept_around hzero ha hb (show (48 : UInt8) ≠ 0 by decide) hbehind
  have heq := (hsame 48 (by decide)).trans (hsame 49 (by decide)).symm
  rwa [kept_succ, kept_succ, drop_around, drop_around, hx, hy] at heq

/-- A pair fixes the byte of a string if the byte depends on its own characters. -/
theorem OwnByte.fixes (h : OwnByte s i) (heven : s.length % 2 = 0) (hzero : 0 ∉ s)
    (ha : s[2 * i]? = some a) (hb : s[2 * i + 1]? = some b) : Fixes s.length i a b := by
  obtain ⟨hlt, -⟩ := List.getElem?_eq_some_iff.mp hb
  have hsome := h.isSome_scanByte hzero ha hb
  unfold Fixes
  split_ifs with hspace hlast
  · rwa [hlast, Nat.sub_self, List.replicate_zero, scanByte_space hspace, scanByte_singleton,
      Option.isSome_map] at hsome
  · have heq {x y : UInt8} := h.scanByte_eq hzero ha hb (x := x) (y := y)
    obtain ⟨m, hm⟩ : ∃ m, s.length - (2 * i + 2) = m + 2 :=
      ⟨s.length - (2 * i + 2) - 2, by omega⟩
    simp only [hm, List.replicate_succ, scanByte_space hspace] at hsome heq
    have hstops : Stops b := by
      by_contra hb'
      obtain ⟨x, y, hx, hy, hne⟩ := exists_scanByte_ne hb' (List.replicate m 48)
        (List.replicate m 49)
      exact hne (heq hx hy)
    rw [scanByte_of_stops hstops] at hsome
    exact ⟨hsome.resolve_right nofun, hstops⟩
  · rw [Bool.not_eq_true] at hspace
    rwa [scanByte_pair hspace, isSome_scanByte_iff hspace] at hsome

theorem outstrlen_congr (hlength : t.length = s.length) : outstrlen t = outstrlen s := by
  unfold outstrlen
  rw [hlength]

/-- **Bytes and their characters.** A byte depends on its own two characters only exactly if the
loop gets to it and the characters fix it. -/
theorem ownByte_iff (heven : s.length % 2 = 0) (hzero : 0 ∉ s) (ha : s[2 * i]? = some a)
    (hb : s[2 * i + 1]? = some b) :
    OwnByte s i ↔ (i : ℤ) < outstrlen s ∧ Fixes s.length i a b := by
  constructor
  · intro h
    obtain ⟨byte, hbyte, -⟩ := h s [] [] rfl hzero rfl rfl
    exact ⟨((byteAt_eq_some_iff hzero []).mp hbyte).1, h.fixes heven hzero ha hb⟩
  · rintro ⟨hi, hfixes⟩ t rest rest' hlength hzero' ha' hb'
    rw [ha] at ha'
    rw [hb] at hb'
    have hi' : (i : ℤ) < outstrlen t := by
      rw [outstrlen_congr hlength]
      exact hi
    refine ⟨_, (byteAt_eq_some_iff hzero rest).mpr ⟨hi, rfl⟩,
      (byteAt_eq_some_iff hzero' rest').mpr ⟨hi', ?_⟩⟩
    exact hfixes.kept_eq hlength ha hb ha' hb'

/-- The second byte of `1f0a`. -/
theorem ownByte_digits : OwnByte [49, 102, 48, 97] 1 := by
  refine (ownByte_iff rfl (by decide) rfl rfl).mpr ⟨?_, ?_⟩
  · rw [outstrlen_eq (by decide)]
    decide
  · decide

/-- The second byte of `11zz` is the first one, and that of `22zz` is another. -/
theorem not_ownByte_letters : ¬OwnByte [49, 49, 122, 122] 1 := by
  intro h
  obtain ⟨byte, hbyte, hbyte'⟩ := h [50, 50, 122, 122] [] [] rfl (by decide) rfl rfl
  have hfirst : byteAt [49, 49, 122, 122] [] 1 = some 17 := by decide
  have hsecond : byteAt [50, 50, 122, 122] [] 1 = some 34 := by decide
  rw [hfirst] at hbyte
  rw [hsecond, ← hbyte] at hbyte'
  exact absurd hbyte' (by decide)

end Hack.HexTool
