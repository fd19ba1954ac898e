import Mathlib.Data.List.Infix
import Mathlib.Data.List.TakeWhile

/-!
# C strings in blocks of memory

A block of memory is the list of its bytes, and a string is what stands in it before the
first zero byte. The functions of the C library that are embedded here read their strings
up to that zero and write a new one behind what they copy. Reading or writing past the end
of a block is a fault, and a call that faults has no result. What a block holds behind the
string is arbitrary: no result depends on it, only the room it takes does.
-/

namespace Hack.CString

/-- The string at the front of a block. Without a zero byte the block is read past its end. -/
def cstr : List UInt8 → Option (List UInt8)
  | [] => none
  | byte :: block => if byte = 0 then some [] else (cstr block).map (byte :: ·)

/-- `strlen`. -/
def strlen (block : List UInt8) : Option ℕ := (cstr block).map List.length

/-- `isspace`. -/
def isSpace (c : UInt8) : Bool := c = 32 ∨ 9 ≤ c ∧ c ≤ 13

/-- A string written at an offset of a block, with its closing zero. -/
def store (dest : List UInt8) (offset : ℕ) (s : List UInt8) : Option (List UInt8) :=
  if offset + s.length < dest.length then
    some (dest.take offset ++ s ++ 0 :: dest.drop (offset + s.length + 1))
  else none

/-- `strcpy`. -/
def strcpy (dest src : List UInt8) : Option (List UInt8) :=
  (cstr src).bind fun s => store dest 0 s

/-- `strcat`. -/
def strcat (dest src : List UInt8) : Option (List UInt8) :=
  (strlen dest).bind fun offset => (cstr src).bind fun s => store dest offset s

/-- The offset of the first occurrence of a list in another one. -/
def leftmost {α : Type*} [DecidableEq α] (needle : List α) : List α → Option ℕ
  | [] => if needle = [] then some 0 else none
  | a :: l => if needle <+: a :: l then some 0 else (leftmost needle l).map (· + 1)

/-- `strstr`, as the offset of the occurrence, if there is one. -/
def strstr (haystack needle : List UInt8) : Option (Option ℕ) :=
  (cstr haystack).bind fun s => (cstr needle).map fun target => leftmost target s

/-- `strsep` with one delimiter, on a pointer to the front of a block. It returns the block
with a zero in the place of the delimiter, and the pointer becomes one behind that place, or
`NULL` if there is no delimiter. -/
def strsep (delim : UInt8) (block : List UInt8) : Option (List UInt8 × Option (List UInt8)) :=
  (cstr block).map fun s =>
    let token := s.takeWhile (· ≠ delim)
    let rest := block.drop (token.length + 1)
    (token ++ 0 :: rest, if token.length < s.length then some rest else none)

/-- `strchr`, as what follows the first occurrence of the character, if there is one. -/
def strchr (block : List UInt8) (c : UInt8) : Option (Option (List UInt8)) :=
  (cstr block).map fun s => if c ∈ s then some (block.drop (s.idxOf c + 1)) else none

variable {block dest src s t rest : List UInt8} {delim : UInt8}

/-- A block with a string in it. -/
theorem cstr_append (hs : 0 ∉ s) (rest : List UInt8) : cstr (s ++ 0 :: rest) = some s := by
  induction s with
  | nil => simp [cstr]
  | cons byte s ih =>
    have hbyte : byte ≠ 0 := fun h => hs (h ▸ List.mem_cons_self)
    have htail : 0 ∉ s := fun h => hs (List.mem_cons_of_mem _ h)
    simp [cstr, hbyte, ih htail]

/-- What a block with a string in it looks like. -/
theorem cstr_eq_some (h : cstr block = some s) : 0 ∉ s ∧ ∃ rest, block = s ++ 0 :: rest := by
  induction block generalizing s with
  | nil => simp [cstr] at h
  | cons byte block ih =>
    simp only [cstr] at h
    split_ifs at h with hbyte
    · cases h
      exact ⟨by simp, block, by rw [hbyte, List.nil_append]⟩
    · obtain ⟨s, hs, rfl⟩ := Option.map_eq_some_iff.mp h
      obtain ⟨hzero, rest, rfl⟩ := ih hs
      refine ⟨?_, rest, rfl⟩
      rw [List.mem_cons, not_or]
      exact ⟨Ne.symm hbyte, hzero⟩

/-- A block without a zero byte holds no string. -/
theorem cstr_eq_none (hblock : 0 ∉ block) : cstr block = none := by
  rw [Option.eq_none_iff_forall_ne_some]
  intro s hs
  obtain ⟨-, rest, rfl⟩ := cstr_eq_some hs
  exact hblock (by simp)

/-- The length of the string in a block. -/
theorem strlen_append (hs : 0 ∉ s) (rest : List UInt8) :
    strlen (s ++ 0 :: rest) = some s.length := by
  rw [strlen, cstr_append hs, Option.map_some]

/-- Copying a string into a block that has room for it. -/
theorem strcpy_eq (hs : 0 ∉ s) (hroom : s.length < dest.length) (rest : List UInt8) :
    strcpy dest (s ++ 0 :: rest) = some (s ++ 0 :: dest.drop (s.length + 1)) := by
  simp [strcpy, cstr_append hs, store, hroom]

/-- A string that does not fit is written past the end of the block. -/
theorem strcpy_eq_none (hs : 0 ∉ s) (hroom : dest.length ≤ s.length) (rest : List UInt8) :
    strcpy dest (s ++ 0 :: rest) = none := by
  simp [strcpy, cstr_append hs, store, hroom]

/-- Appending a string in a block: what follows the string it is appended to is the room
for it. -/
theorem strcat_eq (hs : 0 ∉ s) (ht : 0 ∉ t) (rest room : List UInt8) :
    strcat (s ++ 0 :: room) (t ++ 0 :: rest) =
      if t.length ≤ room.length then some (s ++ t ++ 0 :: room.drop t.length) else none := by
  rw [strcat, strlen_append hs, cstr_append ht, Option.bind_some, Option.bind_some, store]
  have hfits : s.length + t.length < (s ++ 0 :: room).length ↔ t.length ≤ room.length := by
    rw [List.length_append, List.length_cons]
    omega
  have htake : (s ++ 0 :: room).take s.length = s := List.take_left
  have hdrop : (s ++ 0 :: room).drop (s.length + t.length + 1) = room.drop t.length := by
    rw [Nat.add_assoc, ← List.drop_drop, List.drop_left, List.drop_succ_cons]
  simp only [hfits, htake, hdrop]

/-- Copying a string to the front of a cleared block with `strcat`. -/
theorem strcat_replicate (hs : 0 ∉ s) {size : ℕ} (hroom : s.length < size) :
    strcat (List.replicate size 0) (s ++ [0]) =
      some (s ++ 0 :: List.replicate (size - s.length - 1) 0) := by
  obtain ⟨size, rfl⟩ := Nat.exists_eq_succ_of_ne_zero (Nat.ne_zero_of_lt hroom)
  have hcat := strcat_eq (List.not_mem_nil (a := 0)) hs [] (List.replicate size 0)
  rw [List.length_replicate, if_pos (Nat.le_of_lt_succ hroom), List.drop_replicate] at hcat
  rw [List.replicate_succ, Nat.succ_eq_add_one, Nat.sub_right_comm, Nat.add_sub_cancel]
  exact hcat

/-- What stands behind the first delimiter. -/
theorem drop_delim (s t rest : List UInt8) (delim : UInt8) :
    (s ++ delim :: t ++ 0 :: rest).drop (s.length + 1) = t ++ 0 :: rest := by
  rw [List.append_assoc, ← List.drop_drop, List.drop_left, List.cons_append,
    List.drop_succ_cons, List.drop_zero]

/-- The last token. -/
theorem strsep_eq_last (hs : 0 ∉ s) (hdelim : delim ∉ s) (rest : List UInt8) :
    strsep delim (s ++ 0 :: rest) = some (s ++ 0 :: rest, none) := by
  have htoken : s.takeWhile (· ≠ delim) = s := by
    rw [List.takeWhile_eq_self_iff]
    intro byte hbyte
    exact decide_eq_true fun h => hdelim (h ▸ hbyte)
  have hrest : (s ++ 0 :: rest).drop (s.length + 1) = rest := by
    rw [← List.drop_drop, List.drop_left, List.drop_succ_cons, List.drop_zero]
  simp only [strsep, cstr_append hs, Option.map_some, htoken, hrest, lt_irrefl, if_false]

/-- A token that is followed by others. -/
theorem strsep_eq_cons (hs : 0 ∉ s) (ht : 0 ∉ t) (hdelim : delim ∉ s) (hzero : delim ≠ 0)
    (rest : List UInt8) : strsep delim (s ++ delim :: t ++ 0 :: rest) =
      some (s ++ 0 :: (t ++ 0 :: rest), some (t ++ 0 :: rest)) := by
  have hstring : 0 ∉ s ++ delim :: t := by
    simp only [List.mem_append, List.mem_cons, not_or]
    exact ⟨hs, Ne.symm hzero, ht⟩
  have htoken : (s ++ delim :: t).takeWhile (· ≠ delim) = s := by
    have hpos : ∀ byte ∈ s, decide (byte ≠ delim) = true := fun byte hbyte =>
      decide_eq_true fun h => hdelim (h ▸ hbyte)
    rw [List.takeWhile_append_of_pos hpos]
    simp
  have hlength : s.length < (s ++ delim :: t).length := by simp
  simp only [strsep, cstr_append hstring, Option.map_some, htoken, drop_delim, if_pos hlength]

/-- A character that a string does not have. -/
theorem strchr_eq_none (hs : 0 ∉ s) (hdelim : delim ∉ s) (rest : List UInt8) :
    strchr (s ++ 0 :: rest) delim = some none := by
  rw [strchr, cstr_append hs, Option.map_some, if_neg hdelim]

/-- The first occurrence of a character. -/
theorem strchr_eq_some (hs : 0 ∉ s) (ht : 0 ∉ t) (hdelim : delim ∉ s) (hzero : delim ≠ 0)
    (rest : List UInt8) :
    strchr (s ++ delim :: t ++ 0 :: rest) delim = some (some (t ++ 0 :: rest)) := by
  have hstring : 0 ∉ s ++ delim :: t := by
    simp only [List.mem_append, List.mem_cons, not_or]
    exact ⟨hs, Ne.symm hzero, ht⟩
  have hmem : delim ∈ s ++ delim :: t := List.mem_append_right _ List.mem_cons_self
  have hindex : (s ++ delim :: t).idxOf delim = s.length := by
    rw [List.idxOf_append_of_notMem hdelim, List.idxOf_cons_self, Nat.add_zero]
  rw [strchr, cstr_append hstring, Option.map_some, if_pos hmem, hindex, drop_delim]

/-- `strsep` moves its pointer forward. -/
theorem length_of_strsep {line : List UInt8} (h : strsep delim block = some (line, some rest)) :
    rest.length < block.length := by
  obtain ⟨s, hs, h⟩ := Option.map_eq_some_iff.mp h
  obtain ⟨-, room, rfl⟩ := cstr_eq_some hs
  simp only [Prod.mk.injEq, Option.ite_none_right_eq_some, Option.some_inj] at h
  rw [← h.2.2, List.length_drop, List.length_append, List.length_cons]
  omega

/-- Searching for a string in another one. -/
theorem strstr_eq (hs : 0 ∉ s) (ht : 0 ∉ t) (rest room : List UInt8) :
    strstr (s ++ 0 :: rest) (t ++ 0 :: room) = some (leftmost t s) := by
  rw [strstr, cstr_append hs, cstr_append ht, Option.bind_some, Option.map_some]

/-- Where a list first occurs in another one. -/
theorem leftmost_eq_some_iff {α : Type*} [DecidableEq α] {needle l : List α} {k : ℕ} :
    leftmost needle l = some k ↔
      k ≤ l.length ∧ needle <+: l.drop k ∧ ∀ j < k, ¬needle <+: l.drop j := by
  induction l generalizing k with
  | nil =>
    simp only [leftmost, List.drop_nil, List.prefix_nil, List.length_nil, Nat.le_zero]
    constructor
    · intro h
      split_ifs at h with hneedle
      cases h
      exact ⟨rfl, hneedle, fun j hj => absurd hj (Nat.not_lt_zero j)⟩
    · rintro ⟨rfl, hneedle, -⟩
      rw [if_pos hneedle]
  | cons a l ih =>
    simp only [leftmost]
    split_ifs with hfirst
    · constructor
      · intro h
        cases h
        exact ⟨Nat.zero_le _, hfirst, fun j hj => absurd hj (Nat.not_lt_zero j)⟩
      · rintro ⟨-, -, hnone⟩
        cases k with
        | zero => rfl
        | succ k => exact absurd hfirst (hnone 0 (Nat.succ_pos k))
    · cases k with
      | zero =>
        simp only [Option.map_eq_some_iff, Nat.succ_ne_zero, and_false, exists_false, false_iff]
        rintro ⟨-, h, -⟩
        exact hfirst h
      | succ k =>
        rw [Option.map_eq_some_iff]
        simp only [Nat.add_right_cancel_iff, exists_eq_right, ih, List.drop_succ_cons,
          List.length_cons, Nat.add_le_add_iff_right]
        refine and_congr_right fun _ => and_congr_right fun _ =>
          ⟨fun h j hj => ?_, fun h j hj => ?_⟩
        · cases j with
          | zero => exact hfirst
          | succ j => exact h j (Nat.lt_of_succ_lt_succ hj)
        · exact h (j + 1) (Nat.succ_lt_succ hj)

/-- A list occurs in another one exactly when it has a first occurrence. -/
theorem isSome_leftmost_iff {α : Type*} [DecidableEq α] {needle l : List α} :
    (leftmost needle l).isSome ↔ needle <:+: l := by
  induction l with
  | nil =>
    rw [List.infix_nil, leftmost]
    split_ifs with h <;> simp [h]
  | cons a l ih =>
    rw [List.infix_cons_iff, ← ih, leftmost]
    split_ifs with h <;> simp [h]

end Hack.CString
