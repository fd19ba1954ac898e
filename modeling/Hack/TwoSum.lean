import Hack.Cpp
import Hack.Loop
import Mathlib.Data.Prod.Lex

/-!
# Two numbers with a given sum

This file embeds `twoSum` of `0xetc/0xcc/hashmap/two-sum`. For every position the positions behind
it are tried in their order. The outer loop has no end of its own: it is left with the first pair
that is found, and without a pair the first position is counted on until it does not fit an `int`.
-/

namespace Hack.TwoSum

open Cpp Loop

/-- The two positions. -/
structure Vars where
  front : ℕ
  i : ℕ

/-- A turn of the inner loop, or the end of it. -/
def turn (nums : List ℤ) (target nsize : ℤ) (v : Vars) : Option (Turn Vars (List ℕ)) :=
  if v.i < nsize then do
    let a ← nums[v.front]?
    let b ← nums[v.i]?
    let thisval ← int (a + b)
    if thisval = target then some (.leave [v.front, v.i])
    else do
      let i ← increment v.i
      some (.next { v with i })
  else do
    -- Nothing was found, and the outer loop begins again.
    let front ← increment v.front
    let i ← increment front
    some (.next ⟨front, i⟩)

/-- `twoSum`, with a limit on its turns. -/
def twoSum (nums : List ℤ) (target : ℤ) (limit : ℕ) : Option (Option (List ℕ)) :=
  run (turn nums target (size nums)) limit ⟨0, 1⟩

/-- Two positions with the sum. -/
def Pair (nums : List ℤ) (target : ℤ) (i j : ℕ) : Prop :=
  i < j ∧ ∃ a b, nums[i]? = some a ∧ nums[j]? = some b ∧ a + b = target

/-- The first pair in the lexicographic order. -/
structure LeastPair (nums : List ℤ) (target : ℤ) (i j : ℕ) : Prop where
  pair : Pair nums target i j
  least : ∀ i' j', Pair nums target i' j' → i < i' ∨ i = i' ∧ j ≤ j'

/-- The function ends and returns the first pair, or nothing if there is none. -/
def FindsPair (nums : List ℤ) (target : ℤ) : Prop :=
  ∃ limit r, twoSum nums target limit = some (some r) ∧
    ((∃ i j, LeastPair nums target i j ∧ r = [i, j]) ∨ (∀ i j, ¬Pair nums target i j) ∧ r = [])

/-- There is a first pair, and it is before the converted size. -/
def ReadsPair (nums : List ℤ) (target : ℤ) : Prop :=
  ∃ i j, LeastPair nums target i j ∧ j < size nums

variable {nums : List ℤ} {target nsize : ℤ} {v : Vars} {p q : ℕ}

/-- The function returns nothing but two positions before the size. -/
theorem exists_of_returns {r : List ℕ} (h : Returns (turn nums target nsize) ⟨0, 1⟩ r) :
    ∃ i j : ℕ, r = [i, j] ∧ j < nsize := by
  apply Returns.post (fun _ => True) (fun r => ∃ i j : ℕ, r = [i, j] ∧ j < nsize) _ _ trivial h
  · intro _ _ _ _
    trivial
  · intro v r _ hturn
    rw [turn] at hturn
    by_cases hlt : v.i < nsize
    · simp only [if_pos hlt, Option.bind_eq_bind, Option.bind_eq_some_iff] at hturn
      obtain ⟨_, -, _, -, _, -, hturn⟩ := hturn
      split_ifs at hturn
      · cases hturn
        exact ⟨v.front, v.i, rfl, hlt⟩
      · obtain ⟨_, -, hturn⟩ := Option.bind_eq_some_iff.mp hturn
        cases hturn
    · simp only [if_neg hlt, Option.bind_eq_bind, Option.bind_eq_some_iff] at hturn
      obtain ⟨_, -, _, -, ⟨⟩⟩ := hturn

/-- What holds before every turn: the first pair is still to come. -/
structure Vars.Inv (p q nsize : ℕ) (v : Vars) : Prop where
  front_lt : v.front < v.i
  i_le : v.i ≤ nsize
  ahead : v.front < p ∨ v.front = p ∧ v.i ≤ q

/-- Every turn moves one of the positions. -/
def Vars.variant (p nsize : ℕ) (v : Vars) : ℕ ×ₗ ℕ := toLex (p - v.front, nsize - v.i)

/-- Sums of pairs fit. -/
def SumsFit (nums : List ℤ) : Prop :=
  ∀ (i j : ℕ) (a b : ℤ), i < j → nums[i]? = some a → nums[j]? = some b →
    -2 ^ 31 ≤ a + b ∧ a + b < 2 ^ 31

/-- A turn of the inner loop, with the first pair still to come. -/
theorem turn_inner {nsize : ℕ} (hsums : SumsFit nums) (hsize : nsize ≤ nums.length)
    (hint : nsize < 2 ^ 31) (hleast : LeastPair nums target p q) (hinv : v.Inv p q nsize)
    (hi : v.i < nsize) :
    (∃ v', turn nums target nsize v = some (.next v') ∧ v'.Inv p q nsize ∧
      v'.variant p nsize < v.variant p nsize) ∨
    turn nums target nsize v = some (.leave [p, q]) := by
  obtain ⟨hfront, -, hahead⟩ := hinv
  have ha : nums[v.front]? = some nums[v.front] := List.getElem?_eq_getElem (by omega)
  have hb : nums[v.i]? = some nums[v.i] := List.getElem?_eq_getElem (by omega)
  obtain ⟨hge, hlt⟩ := hsums _ _ _ _ hfront ha hb
  have hturn : turn nums target nsize v =
      if nums[v.front] + nums[v.i] = target then some (.leave [v.front, v.i])
      else some (.next { v with i := v.i + 1 }) := by
    rw [turn, if_pos (by exact_mod_cast hi), ha, hb]
    simp only [Option.bind_eq_bind, Option.bind_some, int_eq hge hlt,
      increment_eq (show v.i + 1 < 2 ^ 31 by omega)]
  rw [hturn]
  split_ifs with hsum
  · -- The pair that is found is the first one.
    right
    have hfirst := hleast.least v.front v.i ⟨hfront, _, _, ha, hb, hsum⟩
    rw [show v.front = p by omega, show v.i = q by omega]
  · left
    refine ⟨_, rfl, ⟨Nat.lt_succ_of_lt hfront, hi, ?_⟩, ?_⟩
    · rcases hahead with hless | ⟨heq, hle⟩
      · exact .inl hless
      · refine .inr ⟨heq, lt_of_le_of_ne hle ?_⟩
        rintro rfl
        obtain ⟨-, a, b, hpa, hqb, hpair⟩ := hleast.pair
        rw [← heq, ha] at hpa
        rw [hb] at hqb
        cases hpa
        cases hqb
        exact hsum hpair
    · rw [Vars.variant, Vars.variant, Prod.Lex.toLex_lt_toLex]
      exact .inr ⟨rfl, by simp only; omega⟩

/-- The end of the inner loop, with the first pair still to come. -/
theorem turn_outer {nsize : ℕ} (hint : nsize < 2 ^ 31) (hpq : p < q) (hq : q < nsize)
    (hinv : v.Inv p q nsize) (hi : ¬v.i < nsize) :
    ∃ v', turn nums target nsize v = some (.next v') ∧ v'.Inv p q nsize ∧
      v'.variant p nsize < v.variant p nsize := by
  obtain ⟨hfront, hle, hahead⟩ := hinv
  have hless : v.front < p := by omega
  have hturn : turn nums target nsize v = some (.next ⟨v.front + 1, v.front + 1 + 1⟩) := by
    rw [turn, if_neg (by exact_mod_cast hi), increment_eq (by omega)]
    simp only [Option.bind_eq_bind, Option.bind_some,
      increment_eq (show v.front + 1 + 1 < 2 ^ 31 by omega)]
  refine ⟨_, hturn, ⟨Nat.lt_succ_self _, by simp only; omega, by simp only; omega⟩, ?_⟩
  rw [Vars.variant, Vars.variant, Prod.Lex.toLex_lt_toLex]
  exact .inl (by simp only; omega)

/-- The first pair is found if it is before the size. -/
theorem returns_of_leastPair {nsize : ℕ} (hsums : SumsFit nums) (hsize : nsize ≤ nums.length)
    (hint : nsize < 2 ^ 31) (hleast : LeastPair nums target p q) (hq : q < nsize) :
    Returns (turn nums target nsize) ⟨0, 1⟩ [p, q] := by
  have hpq := hleast.pair.1
  obtain ⟨r, hreturns, rfl⟩ : ∃ r, Returns (turn nums target nsize) ⟨0, 1⟩ r ∧ r = [p, q] := by
    apply exists_returns (Vars.Inv p q nsize) (· = [p, q]) (Vars.variant p nsize)
    · intro v hinv
      by_cases hi : v.i < nsize
      · rcases turn_inner hsums hsize hint hleast hinv hi with hnext | hleave
        · exact .inl hnext
        · exact .inr ⟨_, hleave, rfl⟩
      · exact .inl (turn_outer hint hpq hq hinv hi)
    · exact ⟨Nat.zero_lt_one, by simp only; omega, by simp only; omega⟩
  exact hreturns

/-- For sums that fit, the function finds the first pair exactly if there is one before the
converted size. -/
theorem findsPair_iff (hsums : SumsFit nums) : FindsPair nums target ↔ ReadsPair nums target := by
  constructor
  · rintro ⟨limit, r, hrun, hspec⟩
    obtain ⟨i, j, rfl, hj⟩ := exists_of_returns ⟨limit, hrun⟩
    rcases hspec with ⟨i', j', hleast, heq⟩ | ⟨-, hempty⟩
    · cases heq
      exact ⟨i, j, hleast, hj⟩
    · cases hempty
  · rintro ⟨p, q, hleast, hq⟩
    have hle := size_le nums
    have hlt := size_lt nums
    obtain ⟨nsize, hnsize⟩ := Int.eq_ofNat_of_zero_le (show 0 ≤ size nums by omega)
    rw [hnsize] at hq hle hlt
    obtain ⟨limit, hrun⟩ := returns_of_leastPair hsums (Int.ofNat_le.mp hle) (by omega) hleast
      (Int.ofNat_lt.mp hq)
    rw [← hnsize] at hrun
    exact ⟨limit, [p, q], hrun, .inl ⟨p, q, hleast, rfl⟩⟩

/-- The numbers 2, 7, 11, 15 and the target 9. -/
theorem findsPair_nine : FindsPair [2, 7, 11, 15] 9 := by
  refine (findsPair_iff ?_).mpr ⟨0, 1, ⟨⟨by decide, 2, 7, rfl, rfl, rfl⟩, ?_⟩, by decide⟩
  · intro i j a b _ ha hb
    have hbounds : ∀ x ∈ [(2 : ℤ), 7, 11, 15], 2 ≤ x ∧ x ≤ 15 := by decide
    obtain ⟨hage, hale⟩ := hbounds a (List.mem_of_getElem? ha)
    obtain ⟨hbge, hble⟩ := hbounds b (List.mem_of_getElem? hb)
    omega
  · rintro i j ⟨hij, -⟩
    omega

/-- A single number has no pair, and the loop is never left. -/
theorem not_findsPair_singleton : ¬FindsPair [1] 2 := by
  rintro ⟨limit, r, hrun, hspec⟩
  obtain ⟨i, j, rfl, hj⟩ := exists_of_returns ⟨limit, hrun⟩
  rcases hspec with ⟨i', j', ⟨⟨hij, a, b, -, hb, -⟩, -⟩, -⟩ | ⟨-, hempty⟩
  · obtain ⟨hlt, -⟩ := List.getElem?_eq_some_iff.mp hb
    rw [List.length_singleton] at hlt
    omega
  · cases hempty

end Hack.TwoSum
