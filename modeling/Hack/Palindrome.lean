import Hack.Cpp
import Hack.Loop

/-!
# Palindromes

This file embeds `isPalindrome` of `0xetc/0xcc/two-pointers/valid-palindrome`. The letters and
digits of a string are taken in lower case and compared from both ends. The loop ends where the
two positions are neighbours, or where one character is left between them: which of the two
happens depends on the parity of the size. The size of the string is kept as an `int`, so that of
a longer string only a part is read, or none at all.
-/

namespace Hack.Palindrome

open Cpp Loop

/-- A character is a letter or a digit. -/
def alnum (c : UInt8) : Bool := 48 ≤ c ∧ c ≤ 57 ∨ 65 ≤ c ∧ c ≤ 90 ∨ 97 ≤ c ∧ c ≤ 122

/-- `isalnum`, which is not defined for negative numbers. -/
def isalnum (c : UInt8) : Option Bool := if c < 128 then some (alnum c) else none

/-- `tolower`. -/
def tolower (c : UInt8) : UInt8 := if 65 ≤ c ∧ c ≤ 90 then c + 32 else c

/-- A turn of the loop that collects the characters. -/
def collect (newS : List UInt8) (c : UInt8) : Option (List UInt8) :=
  (isalnum c).map fun keep => if keep then newS ++ [tolower c] else newS

/-- The two positions. -/
structure Vars where
  front : ℤ
  rear : ℤ

/-- Where the first position has nothing left to compare. -/
def stop (newsize rear : ℤ) : Option ℤ :=
  if newsize.tmod 2 = 0 then int (rear - 1) else int (rear - 2)

/-- A turn of the loop that compares the characters. -/
def turn (newS : List UInt8) (newsize : ℤ) (v : Vars) : Option (Turn Vars Bool) := do
  let a ← charAt newS v.front
  let b ← charAt newS v.rear
  if a = b then do
    let limit ← stop newsize v.rear
    if v.front = limit then some (.leave true)
    else do
      let front ← int (v.front + 1)
      let rear ← int (v.rear - 1)
      some (.next ⟨front, rear⟩)
  else some (.leave false)

/-- `isPalindrome` behind its first loop, with a limit on the turns of the second. -/
def compareEnds (newS : List UInt8) (newsize : ℤ) (limit : ℕ) : Option (Option Bool) :=
  if newsize = 0 ∨ newsize = 1 then some (some true)
  else run (turn newS newsize) limit ⟨0, newsize - 1⟩

/-- `isPalindrome`, with a limit on the turns of its second loop. -/
def isPalindrome (s : List UInt8) (limit : ℕ) : Option (Option Bool) :=
  ((visited s).foldlM collect []).elim (some none) fun newS => compareEnds newS (size newS) limit

/-- The letters and digits of a string in lower case. -/
def clean (s : List UInt8) : List UInt8 := (s.filter alnum).map tolower

/-- The letters and digits in lower case are the same from behind. -/
def Reads (s : List UInt8) : Prop := (clean s).reverse = clean s

/-- The function ends and tells whether the string is a palindrome. -/
def AnswersPalindrome (s : List UInt8) : Prop :=
  ∃ limit result, isPalindrome s limit = some (some result) ∧ (result = true ↔ Reads s)

variable {s newS : List UInt8} {v : Vars}

/-- The loop collects the letters and digits in lower case. -/
theorem foldlM_collect (hascii : ∀ c ∈ s, c < 128) (newS : List UInt8) :
    s.foldlM collect newS = some (newS ++ clean s) := by
  induction s generalizing newS with
  | nil =>
    rw [List.foldlM_nil, clean, List.filter_nil, List.map_nil, List.append_nil]
    rfl
  | cons c s ih =>
    rw [List.forall_mem_cons] at hascii
    rw [List.foldlM_cons, collect, isalnum, if_pos hascii.1, Option.map_some, Option.bind_eq_bind,
      Option.bind_some, ih hascii.2, clean, clean]
    cases hkeep : alnum c with
    | true => rw [if_pos rfl, List.filter_cons_of_pos hkeep, List.map_cons, List.append_assoc,
        List.singleton_append]
    | false =>
      rw [if_neg Bool.false_ne_true, List.filter_cons_of_neg (Bool.eq_false_iff.mp hkeep)]

/-- A list is the same from behind if each element of the first half is the one opposite to it. -/
theorem reverse_eq_iff : newS.reverse = newS ↔
    ∀ i, 2 * i + 1 < newS.length → newS[i]? = newS[newS.length - 1 - i]? := by
  constructor
  · intro h i hi
    rw [← List.getElem?_reverse (by omega), h]
  · intro h
    apply List.ext_getElem?
    intro i
    rcases Nat.lt_or_ge i newS.length with hlt | hge
    · rw [List.getElem?_reverse hlt]
      rcases Nat.lt_trichotomy (2 * i + 1) newS.length with hfirst | hmiddle | hsecond
      · exact (h i hfirst).symm
      · rw [show newS.length - 1 - i = i by omega]
      · rw [h (newS.length - 1 - i) (by omega),
          show newS.length - 1 - (newS.length - 1 - i) = i by omega]
    · rw [List.getElem?_eq_none (by rw [List.length_reverse]; exact hge), List.getElem?_eq_none hge]

/-- What holds before every turn: the positions are opposite to each other, and what they have
passed agrees. -/
structure Vars.Inv (newS : List UInt8) (f : ℕ) (v : Vars) : Prop where
  front_eq : v.front = f
  rear_eq : v.rear = (newS.length - 1 - f : ℕ)
  apart : 2 * f + 1 < newS.length
  agree : ∀ i < f, newS[i]? = newS[newS.length - 1 - i]?

/-- A turn compares two characters and looks whether there are others between them. -/
theorem turn_eq {f : ℕ} (hlength : newS.length < 2 ^ 31) (hinv : v.Inv newS f) :
    turn newS newS.length v =
      if newS[f]? = newS[newS.length - 1 - f]? then
        if newS.length ≤ 2 * f + 3 then some (.leave true)
        else some (.next ⟨(f + 1 : ℕ), (newS.length - 1 - (f + 1) : ℕ)⟩)
      else some (.leave false) := by
  obtain ⟨hfront, hrear, hapart, -⟩ := hinv
  generalize hr : newS.length - 1 - f = r at hrear
  have hf : f < newS.length := by omega
  have hr' : r < newS.length := by omega
  -- The positions meet at the neighbour, or with one character between them.
  have hstop : stop newS.length r = some ((r : ℤ) - 1 - (newS.length % 2 : ℕ)) := by
    have hparity : (newS.length : ℤ).tmod 2 = (newS.length % 2 : ℕ) := by
      rw [Int.tmod_eq_emod_of_nonneg (Int.natCast_nonneg _)]
      omega
    rw [stop, hparity]
    split_ifs with heven
    · rw [heven, Int.sub_zero]
      exact int_eq (by omega) (by omega)
    · rw [show (r : ℤ) - 1 - (newS.length % 2 : ℕ) = r - 2 by omega]
      exact int_eq (by omega) (by omega)
  have hfront' : int ((f : ℤ) + 1) = some ((f + 1 : ℕ) : ℤ) := int_eq (by omega) (by omega)
  have hrear' : int ((r : ℤ) - 1) = some ((newS.length - 1 - (f + 1) : ℕ) : ℤ) := by
    rw [show (r : ℤ) - 1 = (newS.length - 1 - (f + 1) : ℕ) by omega]
    exact int_eq (by omega) (by omega)
  have hend : (f : ℤ) = (r : ℤ) - 1 - (newS.length % 2 : ℕ) ↔ newS.length ≤ 2 * f + 3 := by omega
  rw [turn, hfront, hrear, charAt_natCast hf, charAt_natCast hr', List.getElem?_eq_getElem hf,
    List.getElem?_eq_getElem hr']
  simp only [Option.bind_eq_bind, Option.bind_some, hstop, hend, hfront', hrear', Option.some_inj]

/-- A turn moves the positions, or leaves the loop with the answer. -/
theorem turn_cases {f : ℕ} (hlength : newS.length < 2 ^ 31) (hinv : v.Inv newS f) :
    (∃ v', turn newS newS.length v = some (.next v') ∧ v'.Inv newS (f + 1)) ∨
    ∃ result, turn newS newS.length v = some (.leave result) ∧
      (result = true ↔ newS.reverse = newS) := by
  rw [turn_eq hlength hinv]
  have hapart := hinv.apart
  by_cases hsame : newS[f]? = newS[newS.length - 1 - f]?
  · have hagree : ∀ i < f + 1, newS[i]? = newS[newS.length - 1 - i]? := by
      intro i hi
      rcases Nat.lt_succ_iff_lt_or_eq.mp hi with hlt | rfl
      · exact hinv.agree i hlt
      · exact hsame
    rw [if_pos hsame]
    by_cases hend : newS.length ≤ 2 * f + 3
    · right
      refine ⟨true, if_pos hend, iff_of_true rfl ?_⟩
      rw [reverse_eq_iff]
      intro i hi
      exact hagree i (by omega)
    · left
      exact ⟨_, if_neg hend, rfl, rfl, by omega, hagree⟩
  · right
    refine ⟨false, if_neg hsame, iff_of_false Bool.false_ne_true ?_⟩
    rw [reverse_eq_iff]
    intro h
    exact hsame (h f hapart)

/-- The loop ends and tells whether the collected characters are the same from behind. -/
theorem exists_returns_turn (hlength : newS.length < 2 ^ 31) (htwo : 2 ≤ newS.length) :
    ∃ result, Returns (turn newS newS.length) ⟨0, (newS.length : ℤ) - 1⟩ result ∧
      (result = true ↔ newS.reverse = newS) := by
  apply exists_returns (fun v => ∃ f, v.Inv newS f) _ (fun v => newS.length - v.front.toNat)
  · rintro v ⟨f, hinv⟩
    rcases turn_cases hlength hinv with ⟨v', hturn, hinv'⟩ | hleave
    · have hapart := hinv.apart
      refine .inl ⟨v', hturn, ⟨f + 1, hinv'⟩, ?_⟩
      rw [hinv.front_eq, hinv'.front_eq]
      omega
    · exact .inr hleave
  · refine ⟨0, rfl, ?_, by omega, nofun⟩
    show (newS.length : ℤ) - 1 = (newS.length - 1 - 0 : ℕ)
    omega

/-- The function behind its first loop. -/
theorem isPalindrome_eq (hcollect : (visited s).foldlM collect [] = some newS) (limit : ℕ) :
    isPalindrome s limit = compareEnds newS (size newS) limit := by
  rw [isPalindrome, hcollect, Option.elim_some]

/-- The function answers for the characters that it reads. -/
theorem exists_isPalindrome_iff (hascii : ∀ c ∈ s, c < 128) {result : Bool} :
    (∃ limit, isPalindrome s limit = some (some result)) ↔ (result = true ↔ Reads (visited s)) := by
  have hread : ∀ c ∈ visited s, c < 128 := fun c hc => hascii c (mem_of_mem_visited hc)
  have hcollect := foldlM_collect hread []
  rw [List.nil_append] at hcollect
  have hlength : (clean (visited s)).length < 2 ^ 31 := by
    have hle := List.length_filter_le alnum (visited s)
    have hlt := length_visited_lt s
    rw [clean, List.length_map]
    omega
  simp only [isPalindrome_eq hcollect, Reads]
  generalize clean (visited s) = newS at hlength
  simp only [size_eq hlength, compareEnds]
  by_cases hshort : (newS.length : ℤ) = 0 ∨ (newS.length : ℤ) = 1
  · have hreverse : newS.reverse = newS := by
      rw [reverse_eq_iff]
      intro i hi
      omega
    simp only [if_pos hshort, hreverse, exists_const, Option.some.injEq, iff_true, eq_comm]
  · obtain ⟨answer, hreturns, hiff⟩ := exists_returns_turn hlength (by omega)
    simp only [if_neg hshort]
    constructor
    · intro hresult
      rw [← hreturns.unique hresult]
      exact hiff
    · intro hresult
      rw [← hiff, ← Bool.eq_iff_iff] at hresult
      rw [hresult]
      exact hreturns

/-- For a string of ASCII characters the function answers right exactly if the characters that it
does not read make no difference. -/
theorem answersPalindrome_iff (hascii : ∀ c ∈ s, c < 128) :
    AnswersPalindrome s ↔ (Reads (visited s) ↔ Reads s) := by
  constructor
  · rintro ⟨limit, result, hresult, hiff⟩
    have hread := (exists_isPalindrome_iff hascii).mp ⟨limit, hresult⟩
    exact hread.symm.trans hiff
  · intro hsame
    have hdecide : (decide ((clean s).reverse = clean s)) = true ↔ Reads s := decide_eq_true_iff
    obtain ⟨limit, hresult⟩ := (exists_isPalindrome_iff hascii).mpr (hdecide.trans hsame.symm)
    exact ⟨limit, _, hresult, hdecide⟩

/-- A string with a size that fits is read completely. -/
theorem reads_visited_iff (hlength : s.length < 2 ^ 31) : Reads (visited s) ↔ Reads s := by
  rw [visited_eq hlength]

/-- The characters `A, a`. -/
theorem answersPalindrome_comma : AnswersPalindrome [65, 44, 97] :=
  (answersPalindrome_iff (by simp)).mpr (reads_visited_iff (by decide))

/-- Some `a` and a `b` behind them. -/
theorem not_reads_replicate_append {n : ℕ} (hn : 0 < n) : ¬Reads (List.replicate n 97 ++ [98]) := by
  have hclean : clean (List.replicate n 97 ++ [98]) = List.replicate n 97 ++ [98] := by
    have ha : alnum 97 = true := by decide
    have hb : alnum 98 = true := by decide
    rw [clean, List.filter_append, List.filter_replicate_of_pos ha, List.filter_cons_of_pos hb,
      List.filter_nil, List.map_append, List.map_replicate]
    rfl
  intro h
  obtain ⟨m, rfl⟩ := Nat.exists_eq_add_of_lt hn
  have hhead := congrArg List.head? h
  rw [hclean, List.reverse_append, Nat.zero_add, List.replicate_succ] at hhead
  exact absurd hhead (by simp)

/-- Of a string with `2 ^ 31 + 1` characters nothing is read. -/
theorem not_answersPalindrome_replicate :
    ¬AnswersPalindrome (List.replicate (2 ^ 31) 97 ++ [98]) := by
  have hascii : ∀ c ∈ List.replicate (2 ^ 31) (97 : UInt8) ++ [98], c < 128 := by
    intro c hc
    rcases List.mem_append.mp hc with hc | hc
    · rw [List.eq_of_mem_replicate hc]
      decide
    · rw [List.mem_singleton.mp hc]
      decide
  have hread : visited (List.replicate (2 ^ 31) (97 : UInt8) ++ [98]) = [] := by
    have hlength : (List.replicate (2 ^ 31) (97 : UInt8) ++ [98]).length = 2 ^ 31 + 1 := by
      rw [List.length_append, List.length_replicate, List.length_singleton]
    exact visited_eq_nil (by omega) (by omega)
  rintro ⟨limit, result, hresult, hiff⟩
  have hanswer := (exists_isPalindrome_iff hascii).mp ⟨limit, hresult⟩
  rw [hread] at hanswer
  exact not_reads_replicate_append (Nat.two_pow_pos 31) (hiff.mp (hanswer.mpr rfl))

end Hack.Palindrome
