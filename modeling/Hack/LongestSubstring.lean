import Hack.Cpp
import Hack.DistinctWindow
import Hack.Loop
import Mathlib.Data.Prod.Lex

/-!
# The longest substring without repeating characters

This file embeds `lengthOfLongestSubstring` of
`0xetc/0xcc/sliding-window/longest-substring-without-repeating-characters`. The vector that it
keeps is the longest suffix without repetition of the characters read so far: a character that
occurs in it is cut off from the front. The number of characters is kept as an `int`, so that of
a longer string only a part is read, or none at all.
-/

namespace Hack.LongestSubstring

open Cpp DistinctWindow Loop

/-- Where the function is. -/
inductive Place
  /-- At the front of the outer loop. -/
  | read
  /-- At the front of the inner loop. -/
  | shrink
  /-- Behind the inner loop. -/
  | extend
deriving DecidableEq

/-- The variables of the function. -/
structure Vars where
  toplen : ℤ
  front : ℕ
  rear : ℕ
  thisVec : List UInt8
  moveFront : Bool
  thisC : UInt8
  place : Place

/-- `erase` of the first element of a vector. -/
def eraseBegin : List UInt8 → Option (List UInt8)
  | [] => none
  | _ :: rest => some rest

/-- A turn of the outer loop or of the inner one. -/
def turn (s : List UInt8) (maxlen : ℤ) (v : Vars) : Option (Turn Vars ℤ) :=
  match v.place with
  | .read => do
    let thisC ← subscript s v.rear
    some (.next { v with thisC, moveFront := thisC ∈ v.thisVec, place := .shrink })
  | .shrink =>
    if v.moveFront then do
      let front ← increment v.front
      let thisVec ← eraseBegin v.thisVec
      -- The flag is compared here and not assigned, and the loop is left all the same.
      if front = v.rear then some (.next { v with front, thisVec, place := .extend })
      else some (.next { v with front, thisVec, moveFront := v.thisC ∈ thisVec })
    else some (.next { v with place := .extend })
  | .extend => do
    let thisVec := v.thisVec ++ [v.thisC]
    let thisSize := size thisVec
    let toplen := if thisSize > v.toplen then thisSize else v.toplen
    let rear ← increment v.rear
    if rear = maxlen then some (.leave toplen)
    else some (.next { v with thisVec, toplen, rear, place := .read })

/-- The variables before the loop. The character has no value yet. -/
def start (thisC : UInt8) : Vars := ⟨0, 0, 0, [], false, thisC, .read⟩

/-- `lengthOfLongestSubstring`, with a limit on its turns. -/
def lengthOfLongestSubstring (s : List UInt8) (thisC : UInt8) (limit : ℕ) : Option (Option ℤ) :=
  if size s = 0 then some (some 0)
  else run (turn s (size s)) limit (start thisC)

/-- The function ends and returns the length of the longest substring in which no character occurs
twice. -/
def FindsLongest (s : List UInt8) : Prop :=
  ∀ thisC, ∃ limit n, lengthOfLongestSubstring s thisC limit = some (some n) ∧
    IsGreatest (lengths s) n

/-- The string is empty, or the part of it that is read has a longest substring of the whole. -/
def ReadsLongest (s : List UInt8) : Prop :=
  s = [] ∨ 0 < size s ∧ lengths s ⊆ lengths (s.take (size s).toNat)

variable {s : List UInt8} {v : Vars} {maxlen : ℤ}

/-! ### The loops -/

/-- While the inner loop runs: the vector is a suffix of the longest suffix of what was read
before, and has all suffixes of it in which the new character does not occur. -/
structure Vars.Cutting (s : List UInt8) (maxlen : ℤ) (v : Vars) (w : List UInt8) : Prop where
  rear_lt : v.rear < maxlen
  char : s[v.rear]? = some v.thisC
  longest : LongestSuffix (s.take v.rear) w
  cut : CutDownTo v.thisC w v.thisVec
  front_add : v.front + v.thisVec.length = v.rear
  greatest : IsGreatest (lengths (s.take v.rear)) v.toplen

theorem Vars.Cutting.at_place {w : List UInt8} (hcut : v.Cutting s maxlen w) (moveFront : Bool)
    (place : Place) : Vars.Cutting s maxlen { v with moveFront, place } w :=
  ⟨hcut.rear_lt, hcut.char, hcut.longest, hcut.cut, hcut.front_add, hcut.greatest⟩

/-- What holds at the three places. -/
inductive Vars.Inv (s : List UInt8) (maxlen : ℤ) (v : Vars) : Prop
  | read : v.place = .read → v.rear < maxlen → LongestSuffix (s.take v.rear) v.thisVec →
      v.front + v.thisVec.length = v.rear → IsGreatest (lengths (s.take v.rear)) v.toplen →
      Inv s maxlen v
  | shrink {w} : v.place = .shrink → v.Cutting s maxlen w →
      v.moveFront = decide (v.thisC ∈ v.thisVec) → Inv s maxlen v
  | extend {w} : v.place = .extend → v.Cutting s maxlen w → v.thisC ∉ v.thisVec → Inv s maxlen v

/-- A bound of the turns until the next character is read. -/
def Vars.weight (v : Vars) : ℕ :=
  match v.place with
  | .read => v.thisVec.length + 3
  | .shrink => v.thisVec.length + 2
  | .extend => 0

/-- Every turn reads on, or comes nearer to the next character. -/
def Vars.variant (maxlen : ℤ) (v : Vars) : ℕ ×ₗ ℕ := toLex ((maxlen - v.rear).toNat, v.weight)

theorem variant_lt_of_weight {v' : Vars} (hrear : v'.rear = v.rear) (hlt : v'.weight < v.weight) :
    v'.variant maxlen < v.variant maxlen := by
  rw [Vars.variant, Vars.variant, Prod.Lex.toLex_lt_toLex]
  exact .inr ⟨by rw [hrear], hlt⟩

/-- The turn that reads a character. -/
theorem turn_read (hmax : maxlen ≤ s.length) (hplace : v.place = .read) (hrear : v.rear < maxlen)
    (hvec : LongestSuffix (s.take v.rear) v.thisVec) (hfront : v.front + v.thisVec.length = v.rear)
    (hgreatest : IsGreatest (lengths (s.take v.rear)) v.toplen) :
    ∃ v', turn s maxlen v = some (.next v') ∧ v'.Inv s maxlen ∧
      v'.variant maxlen < v.variant maxlen := by
  have hlt : v.rear < s.length := by omega
  have hturn : turn s maxlen v = some (.next { v with
      thisC := s[v.rear], moveFront := s[v.rear] ∈ v.thisVec, place := .shrink }) := by
    rw [turn, hplace]
    simp only [subscript_eq hlt, Option.bind_eq_bind, Option.bind_some]
  have hcut : Vars.Cutting s maxlen { v with
      thisC := s[v.rear], moveFront := s[v.rear] ∈ v.thisVec, place := .shrink } v.thisVec :=
    ⟨hrear, List.getElem?_eq_getElem hlt, hvec, .refl _ _, hfront, hgreatest⟩
  refine ⟨_, hturn, .shrink rfl hcut rfl, variant_lt_of_weight rfl ?_⟩
  simp [Vars.weight, hplace]

/-- A turn of the inner loop. -/
theorem turn_shrink (hmax : maxlen < 2 ^ 31) {w : List UInt8} (hplace : v.place = .shrink)
    (hcut : v.Cutting s maxlen w) (hmove : v.moveFront = decide (v.thisC ∈ v.thisVec)) :
    ∃ v', turn s maxlen v = some (.next v') ∧ v'.Inv s maxlen ∧
      v'.variant maxlen < v.variant maxlen := by
  by_cases hmem : v.thisC ∈ v.thisVec
  · obtain ⟨a, rest, hvec⟩ := List.exists_cons_of_ne_nil (List.ne_nil_of_mem hmem)
    have hlength := hcut.front_add
    rw [hvec, List.length_cons] at hlength
    have hrear := hcut.rear_lt
    have hrest : Vars.Cutting s maxlen { v with front := v.front + 1, thisVec := rest } w := by
      refine ⟨hrear, hcut.char, hcut.longest, ?_, ?_, hcut.greatest⟩
      · have hcutDown := hcut.cut
        rw [hvec] at hcutDown hmem
        exact hcutDown.tail hmem
      · show v.front + 1 + rest.length = v.rear
        omega
    have hturn : turn s maxlen v =
        if v.front + 1 = v.rear then
          some (.next { v with front := v.front + 1, thisVec := rest, place := .extend })
        else some (.next { v with
          front := v.front + 1, thisVec := rest, moveFront := v.thisC ∈ rest }) := by
      have hset : v.moveFront = true := by rw [hmove, decide_eq_true hmem]
      rw [turn, hplace]
      simp only [hset, if_true, increment_eq (show v.front + 1 < 2 ^ 31 by omega), hvec,
        eraseBegin, Option.bind_eq_bind, Option.bind_some]
    rw [hturn]
    split_ifs with hempty
    · -- The vector is empty then, so the character does not occur in it.
      have hnil : rest = [] := List.eq_nil_of_length_eq_zero (by omega)
      refine ⟨_, rfl, .extend rfl (hrest.at_place _ _) ?_, variant_lt_of_weight rfl ?_⟩
      · rw [hnil]
        exact List.not_mem_nil
      · simp [Vars.weight, hplace]
    · refine ⟨_, rfl, .shrink hplace (hrest.at_place _ _) rfl, variant_lt_of_weight rfl ?_⟩
      simp [Vars.weight, hplace, hvec]
  · have hturn : turn s maxlen v = some (.next { v with place := .extend }) := by
      rw [turn, hplace]
      simp only [hmove, hmem, decide_false, Bool.false_eq_true, if_false]
    refine ⟨_, hturn, .extend rfl (hcut.at_place _ _) hmem, variant_lt_of_weight rfl ?_⟩
    simp [Vars.weight, hplace]

/-- The turn behind the inner loop: the vector gets the character, and a longer vector is
recorded. -/
theorem turn_extend (hmax : maxlen < 2 ^ 31) {w : List UInt8} (hplace : v.place = .extend)
    (hcut : v.Cutting s maxlen w) (hnot : v.thisC ∉ v.thisVec) :
    (∃ v', turn s maxlen v = some (.next v') ∧ v'.Inv s maxlen ∧
      v'.variant maxlen < v.variant maxlen) ∨
      ∃ n, turn s maxlen v = some (.leave n) ∧ IsGreatest (lengths (s.take maxlen.toNat)) n := by
  have hrear := hcut.rear_lt
  have hlength := hcut.front_add
  have htake : s.take v.rear ++ [v.thisC] = s.take (v.rear + 1) := by
    rw [List.take_add_one, hcut.char]
    rfl
  have hlongest := hcut.longest.concat hcut.cut hnot
  have hgreatest := isGreatest_lengths_concat hcut.greatest hlongest
  rw [htake] at hlongest hgreatest
  have hsize : size (v.thisVec ++ [v.thisC]) = ((v.thisVec ++ [v.thisC]).length : ℤ) := by
    apply size_eq
    rw [List.length_append, List.length_singleton]
    omega
  have htop : (if size (v.thisVec ++ [v.thisC]) > v.toplen then size (v.thisVec ++ [v.thisC])
      else v.toplen) = max v.toplen ((v.thisVec ++ [v.thisC]).length : ℤ) := by
    rw [hsize]
    split_ifs <;> omega
  have hturn : turn s maxlen v =
      if ((v.rear + 1 : ℕ) : ℤ) = maxlen then
        some (.leave (max v.toplen ((v.thisVec ++ [v.thisC]).length : ℤ)))
      else some (.next { v with
        thisVec := v.thisVec ++ [v.thisC]
        toplen := max v.toplen ((v.thisVec ++ [v.thisC]).length : ℤ)
        rear := v.rear + 1
        place := .read }) := by
    rw [turn, hplace]
    simp only [htop, increment_eq (show v.rear + 1 < 2 ^ 31 by omega), Option.bind_eq_bind,
      Option.bind_some]
  rw [hturn]
  split_ifs with hend
  · refine .inr ⟨_, rfl, ?_⟩
    rwa [← hend, Int.toNat_natCast]
  · refine .inl ⟨_, rfl, .read rfl ?_ hlongest ?_ hgreatest, ?_⟩
    · show ((v.rear + 1 : ℕ) : ℤ) < maxlen
      omega
    · show v.front + (v.thisVec ++ [v.thisC]).length = v.rear + 1
      rw [List.length_append, List.length_singleton]
      omega
    · rw [Vars.variant, Vars.variant, Prod.Lex.toLex_lt_toLex]
      left
      show (maxlen - ((v.rear + 1 : ℕ) : ℤ)).toNat < (maxlen - (v.rear : ℤ)).toNat
      omega

/-- The loop ends with the length of the longest substring of the part that is read. -/
theorem exists_returns_of_size_pos (hpos : 0 < size s) (thisC : UInt8) :
    ∃ n, Returns (turn s (size s)) (start thisC) n ∧
      IsGreatest (lengths (s.take (size s).toNat)) n := by
  apply exists_returns (Vars.Inv s (size s)) _ (Vars.variant (size s))
  · intro v hinv
    cases hinv with
    | read hplace hrear hvec hfront hgreatest =>
      exact .inl (turn_read (size_le s) hplace hrear hvec hfront hgreatest)
    | shrink hplace hcut hmove => exact .inl (turn_shrink (size_lt s) hplace hcut hmove)
    | extend hplace hcut hnot => exact turn_extend (size_lt s) hplace hcut hnot
  · exact .read rfl hpos longestSuffix_nil rfl isGreatest_lengths_nil

/-- A counter that only grows is never a negative size. -/
theorem not_returns_of_size_neg (hneg : maxlen < 0) {n : ℤ} : ¬Returns (turn s maxlen) v n := by
  apply Returns.post (fun _ => True) (fun _ => False)
  · intro v v' _ _
    trivial
  · intro v n _ hleave
    rw [turn] at hleave
    cases hplace : v.place with
    | read =>
      simp only [hplace, Option.bind_eq_bind, Option.bind_eq_some_iff] at hleave
      obtain ⟨c, -, hnext⟩ := hleave
      cases hnext
    | shrink =>
      simp only [hplace, Option.bind_eq_bind] at hleave
      split_ifs at hleave
      · obtain ⟨front, -, hleave⟩ := Option.bind_eq_some_iff.mp hleave
        obtain ⟨thisVec, -, hleave⟩ := Option.bind_eq_some_iff.mp hleave
        split_ifs at hleave <;> cases hleave
      · cases hleave
    | extend =>
      simp only [hplace, Option.bind_eq_bind] at hleave
      obtain ⟨rear, -, hleave⟩ := Option.bind_eq_some_iff.mp hleave
      have hend : (rear : ℤ) ≠ maxlen := by omega
      rw [if_neg hend] at hleave
      cases hleave
  · trivial

/-- The function returns the length of the longest substring without repeating characters exactly
if the string is empty or the part of it that is read has one of the longest. -/
theorem findsLongest_iff (s : List UInt8) : FindsLongest s ↔ ReadsLongest s := by
  rcases lt_trichotomy (size s) 0 with hneg | hzero | hpos
  · constructor
    · intro h
      obtain ⟨limit, n, hrun, -⟩ := h 0
      rw [lengthOfLongestSubstring, if_neg hneg.ne] at hrun
      exact absurd ⟨limit, hrun⟩ (not_returns_of_size_neg hneg)
    · rintro (rfl | ⟨hpos, -⟩)
      · exact absurd hneg (by decide)
      · omega
  · cases s with
    | nil =>
      refine iff_of_true ?_ (.inl rfl)
      exact fun thisC => ⟨0, 0, rfl, isGreatest_lengths_nil⟩
    | cons c s =>
      constructor
      · intro h
        obtain ⟨limit, n, hrun, hgreatest⟩ := h 0
        rw [lengthOfLongestSubstring, if_pos hzero] at hrun
        cases hrun
        exact absurd hgreatest (not_isGreatest_lengths_zero (List.cons_ne_nil c s))
      · rintro (hnil | ⟨hpos, -⟩)
        · cases hnil
        · omega
  · have hread : FindsLongest s ↔ lengths s ⊆ lengths (s.take (size s).toNat) := by
      constructor
      · intro h
        obtain ⟨limit, n, hrun, hgreatest⟩ := h 0
        rw [lengthOfLongestSubstring, if_neg hpos.ne'] at hrun
        obtain ⟨n', hreturns, hgreatest'⟩ := exists_returns_of_size_pos hpos 0
        rw [Returns.unique hreturns ⟨limit, hrun⟩] at hgreatest'
        exact (isGreatest_lengths_iff_subset hgreatest' (List.take_prefix _ _).isInfix).mp hgreatest
      · intro hsubset thisC
        obtain ⟨n, ⟨limit, hrun⟩, hgreatest⟩ := exists_returns_of_size_pos hpos thisC
        refine ⟨limit, n, ?_, ?_⟩
        · rw [lengthOfLongestSubstring, if_neg hpos.ne', hrun]
        · exact (isGreatest_lengths_iff_subset hgreatest (List.take_prefix _ _).isInfix).mpr hsubset
    rw [hread, ReadsLongest]
    constructor
    · intro hsubset
      exact .inr ⟨hpos, hsubset⟩
    · rintro (rfl | ⟨-, hsubset⟩)
      · rw [List.take_nil]
      · exact hsubset

/-- Of a string with `2 ^ 32` characters nothing is read: the function returns zero. -/
theorem not_findsLongest_replicate : ¬FindsLongest (List.replicate (2 ^ 32) 97) := by
  intro h
  obtain ⟨limit, n, hrun, hgreatest⟩ := h 0
  have hzero : size (List.replicate (2 ^ 32) (97 : UInt8)) = 0 := by
    unfold size
    rw [List.length_replicate, Int.bmod_def]
    omega
  rw [lengthOfLongestSubstring, if_pos hzero] at hrun
  cases hrun
  apply not_isGreatest_lengths_zero _ hgreatest
  apply List.ne_nil_of_length_pos
  rw [List.length_replicate]
  omega

end Hack.LongestSubstring
