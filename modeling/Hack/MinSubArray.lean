import Hack.Cpp
import Hack.Loop
import Hack.ShortestWindow
import Mathlib.Algebra.Order.BigOperators.Group.List
import Mathlib.Algebra.Ring.Int.Defs
import Mathlib.Data.Prod.Lex

/-!
# The shortest subarray with a large sum

This file embeds `minSubArrayLen` of `0xetc/0xcc/sliding-window/minimum-size-subarray-sum`. Two
positions that only move forward keep the sum of the numbers between them. For numbers that are
not negative a window that is prolonged has a larger sum, so that the positions find the shortest
window. They are counted in `int` up to the size of the array, which may be larger.
-/

namespace Hack.MinSubArray

open Cpp Loop ShortestWindow

/-- Where the function is. -/
inductive Place
  /-- At the front of the outer loop. -/
  | outer
  /-- At the front of the inner loop. -/
  | inner
  /-- Behind the inner loop. -/
  | behind
deriving DecidableEq

/-- The variables of the function. -/
structure Vars where
  front : ℕ
  rear : ℕ
  sum : ℤ
  minLen : ℤ
  hit : Bool
  place : Place

/-- A turn of the outer loop or of the inner one. -/
def turn (target : ℤ) (nums : List ℤ) (v : Vars) : Option (Turn Vars ℤ) :=
  match v.place with
  | .outer =>
    if v.front < nums.length then do
      let num ← nums[v.front]?
      let sum ← int (v.sum + num)
      some (.next { v with sum, place := .inner })
    else some (.leave (if v.hit then v.minLen else 0))
  | .inner =>
    if v.sum ≥ target then do
      let distance ← int (v.front - v.rear)
      let length ← int (distance + 1)
      let num ← nums[v.rear]?
      let sum ← int (v.sum - num)
      let rear ← increment v.rear
      some (.next { v with
        hit := true, minLen := min v.minLen length, sum, rear
        place := if rear > v.front then .behind else .inner })
    else some (.next { v with place := .behind })
  | .behind => do
    let front ← increment v.front
    some (.next { v with front, place := .outer })

/-- The variables before the loop. The smallest length is `INT_MAX`. -/
def start : Vars := ⟨0, 0, 0, 2 ^ 31 - 1, false, .outer⟩

/-- `minSubArrayLen`, with a limit on its turns. -/
def minSubArrayLen (target : ℤ) (nums : List ℤ) (limit : ℕ) : Option (Option ℤ) :=
  run (turn target nums) limit start

/-- The lengths of the subarrays that are not empty and have a sum of at least the target. -/
def reaching (target : ℤ) (nums : List ℤ) : Set ℕ :=
  {n | ∃ w, w <:+: nums ∧ w ≠ [] ∧ target ≤ w.sum ∧ w.length = n}

/-- The function ends and returns the least of these lengths, or zero if there is none. -/
def FindsMinimum (target : ℤ) (nums : List ℤ) : Prop :=
  ∃ limit r, minSubArrayLen target nums limit = some (some r) ∧
    ((∃ n : ℕ, r = n ∧ IsLeast (reaching target nums) n) ∨ reaching target nums = ∅ ∧ r = 0)

/-! ### Windows -/

/-- The numbers between two positions. -/
def window (nums : List ℤ) (i j : ℕ) : List ℤ := (nums.take j).drop i

/-- A window has a sum of at least the target. -/
def Reaches (target : ℤ) (nums : List ℤ) (i j : ℕ) : Prop := target ≤ (window nums i j).sum

variable {target : ℤ} {nums : List ℤ} {i j : ℕ} {v : Vars} {best : Option ℕ}

theorem window_sublist (nums : List ℤ) (i j : ℕ) : (window nums i j).Sublist nums :=
  (List.drop_sublist i _).trans (List.take_sublist j nums)

/-- A window becomes longer at its end. -/
theorem window_succ_right (hij : i ≤ j) (hj : j < nums.length) :
    window nums i (j + 1) = window nums i j ++ [nums[j]] := by
  have hlength : i ≤ (nums.take j).length := by
    rw [List.length_take]
    omega
  rw [window, List.take_add_one, List.getElem?_eq_getElem hj, Option.toList_some,
    List.drop_append_of_le_length hlength, window]

/-- A window becomes shorter at its beginning. -/
theorem window_succ_left (hij : i < j) (hj : j ≤ nums.length) :
    window nums i j = nums[i] :: window nums (i + 1) j := by
  have hlength : i < (nums.take j).length := by
    rw [List.length_take]
    omega
  rw [window, List.drop_eq_getElem_cons hlength, List.getElem_take, window]

/-- The sums of windows are between zero and the total. -/
theorem sum_window_bounds (hnonneg : ∀ x ∈ nums, 0 ≤ x) (i j : ℕ) :
    0 ≤ (window nums i j).sum ∧ (window nums i j).sum ≤ nums.sum := by
  have hsublist := window_sublist nums i j
  constructor
  · exact List.sum_nonneg fun x hx => hnonneg x (hsublist.subset hx)
  · exact hsublist.sum_le_sum hnonneg

/-- A window that is prolonged to the left has no smaller sum. -/
theorem reaches_of_le (hnonneg : ∀ x ∈ nums, 0 ≤ x) (i i' j : ℕ) (hle : i' ≤ i)
    (h : Reaches target nums i j) : Reaches target nums i' j := by
  have hsublist : (window nums i j).Sublist (window nums i' j) :=
    List.drop_sublist_drop_left _ hle
  apply le_trans h
  exact hsublist.sum_le_sum fun x hx => hnonneg x ((window_sublist nums i' j).subset hx)

/-- The subarrays are the windows. -/
theorem reaching_eq_lengths (target : ℤ) (nums : List ℤ) :
    reaching target nums = lengths (Reaches target nums) nums.length := by
  ext n
  constructor
  · rintro ⟨w, ⟨before, behind, rfl⟩, hne, hsum, rfl⟩
    have hpos := List.length_pos_of_ne_nil hne
    have hwindow : window (before ++ w ++ behind) before.length (before.length + w.length) = w := by
      rw [window, ← List.length_append, List.take_left, List.drop_left]
    refine ⟨before.length, before.length + w.length, by omega, ?_, ?_, by omega⟩
    · rw [List.length_append, List.length_append]
      omega
    · rw [Reaches, hwindow]
      exact hsum
  · rintro ⟨i, j, hij, hj, hsum, rfl⟩
    have hlength : (window nums i j).length = j - i := by
      rw [window, List.length_drop, List.length_take_of_le hj]
    refine ⟨window nums i j, ?_, ?_, hsum, hlength⟩
    · exact (List.drop_suffix i _).isInfix.trans (List.take_prefix j nums).isInfix
    · exact List.ne_nil_of_length_pos (by omega)

/-! ### The loops -/

/-- The best length is kept in `min_len`, and `hit` says whether there is one. -/
def Vars.Records (v : Vars) : Option ℕ → Prop
  | none => v.hit = false ∧ v.minLen = 2 ^ 31 - 1
  | some n => v.hit = true ∧ v.minLen = n

/-- The sum of the window that ends at a position, and the best of the lengths found so far. -/
structure Vars.Holds (target : ℤ) (nums : List ℤ) (stop : ℕ) (found : Set ℕ) (best : Option ℕ)
    (v : Vars) : Prop where
  sum : v.sum = (window nums v.rear stop).sum
  records : v.Records best
  best : Best found best
  passed : Passed (Reaches target nums) stop v.rear

/-- What holds at the three places. -/
inductive Vars.Inv (target : ℤ) (nums : List ℤ) (v : Vars) : Prop
  | outer (best : Option ℕ) : v.place = .outer → v.front ≤ nums.length → v.rear ≤ v.front →
      v.Holds target nums v.front (lengths (Reaches target nums) v.front) best → Inv target nums v
  | inner (best : Option ℕ) : v.place = .inner → v.front < nums.length → v.rear ≤ v.front →
      v.Holds target nums (v.front + 1) (lengthsFrom (Reaches target nums) v.front v.rear) best →
      Inv target nums v
  | behind (best : Option ℕ) : v.place = .behind → v.front < nums.length → v.rear ≤ v.front + 1 →
      v.Holds target nums (v.front + 1) (lengths (Reaches target nums) (v.front + 1)) best →
      Inv target nums v

/-- A bound of the turns until the end of the window moves on. -/
def Vars.weight (v : Vars) : ℕ :=
  match v.place with
  | .outer => v.front - v.rear + 3
  | .inner => v.front - v.rear + 2
  | .behind => 0

/-- Every turn moves one of the positions or comes nearer to that. -/
def Vars.variant (nums : List ℤ) (v : Vars) : ℕ ×ₗ ℕ := toLex (nums.length - v.front, v.weight)

theorem variant_lt_of_weight {v' : Vars} (hfront : v'.front = v.front)
    (hlt : v'.weight < v.weight) : v'.variant nums < v.variant nums := by
  rw [Vars.variant, Vars.variant, Prod.Lex.toLex_lt_toLex]
  exact .inr ⟨by rw [hfront], hlt⟩

/-- The next turn keeps the invariant and decreases the variant. -/
def Advances (target : ℤ) (nums : List ℤ) (v : Vars) : Prop :=
  ∃ v', turn target nums v = some (.next v') ∧ v'.Inv target nums ∧ v'.variant nums < v.variant nums

/-- Numbers that are not negative, with a sum and a size that fit. -/
structure Fits (nums : List ℤ) : Prop where
  nonneg : ∀ x ∈ nums, 0 ≤ x
  sum_lt : nums.sum < 2 ^ 31
  length_lt : nums.length < 2 ^ 31

/-- The sum of a window fits. -/
theorem Fits.int_sum (h : Fits nums) (i j : ℕ) :
    int (window nums i j).sum = some (window nums i j).sum := by
  obtain ⟨hge, hle⟩ := sum_window_bounds h.nonneg i j
  exact int_eq (by omega) (lt_of_le_of_lt hle h.sum_lt)

/-- A length that is recorded. -/
theorem Vars.Records.min (h : v.Records best) {n : ℕ} (hn : n < 2 ^ 31) :
    min v.minLen n = (best.elim n (Min.min n ·) : ℕ) := by
  cases best with
  | none =>
    rw [h.2, Option.elim_none]
    omega
  | some m =>
    rw [h.2, Option.elim_some]
    omega

/-- A number is added at the end of the window. -/
theorem turn_outer (h : Fits nums) (hplace : v.place = .outer) (hfront : v.front < nums.length)
    (hrear : v.rear ≤ v.front)
    (hholds : v.Holds target nums v.front (lengths (Reaches target nums) v.front) best) :
    Advances target nums v := by
  have hadd : v.sum + nums[v.front] = (window nums v.rear (v.front + 1)).sum := by
    rw [window_succ_right hrear hfront, List.sum_append, List.sum_singleton, hholds.sum]
  have hturn : turn target nums v = some (.next { v with
      sum := (window nums v.rear (v.front + 1)).sum, place := .inner }) := by
    rw [turn, hplace]
    simp only [if_pos hfront, List.getElem?_eq_getElem hfront, Option.bind_eq_bind,
      Option.bind_some, hadd, h.int_sum]
  refine ⟨_, hturn, ?_, variant_lt_of_weight rfl ?_⟩
  · exact .inner best rfl hfront hrear
      ⟨rfl, hholds.records, hholds.best.of_passed hholds.passed, hholds.passed.mono⟩
  · simp only [Vars.weight, hplace]
    omega

/-- A number is taken away at the beginning of the window, which has reached the target. -/
theorem turn_inner (h : Fits nums) (hplace : v.place = .inner) (hfront : v.front < nums.length)
    (hrear : v.rear ≤ v.front) (hholds : v.Holds target nums (v.front + 1)
      (lengthsFrom (Reaches target nums) v.front v.rear) best)
    (hreaches : Reaches target nums v.rear (v.front + 1)) : Advances target nums v := by
  obtain ⟨hsum, hrecords, hbest, hpassed⟩ := hholds
  have hlength := h.length_lt
  have hsub : v.sum - nums[v.rear] = (window nums (v.rear + 1) (v.front + 1)).sum := by
    rw [hsum, window_succ_left (show v.rear < v.front + 1 by omega) hfront, List.sum_cons]
    omega
  have hdistance : ((v.front : ℤ) - v.rear) + 1 = (v.front + 1 - v.rear : ℕ) := by omega
  have hturn : turn target nums v = some (.next { v with
      hit := true
      minLen := (best.elim (v.front + 1 - v.rear) (min (v.front + 1 - v.rear) ·) : ℕ)
      sum := (window nums (v.rear + 1) (v.front + 1)).sum
      rear := v.rear + 1
      place := if v.rear + 1 > v.front then .behind else .inner }) := by
    rw [turn, hplace]
    simp only [if_pos (show v.sum ≥ target from hsum ▸ hreaches),
      int_eq (show -2 ^ 31 ≤ (v.front : ℤ) - v.rear by omega) (by omega), Option.bind_eq_bind,
      Option.bind_some, hdistance, int_eq (show -2 ^ 31 ≤ ((v.front + 1 - v.rear : ℕ) : ℤ) by omega)
      (by omega), List.getElem?_eq_getElem (show v.rear < nums.length by omega), hsub, h.int_sum,
      increment_eq (show v.rear + 1 < 2 ^ 31 by omega),
      hrecords.min (show v.front + 1 - v.rear < 2 ^ 31 by omega)]
  refine ⟨_, hturn, ?_, variant_lt_of_weight rfl ?_⟩
  · have hbest' := hbest.pass hrear hreaches
    have hpassed' := hpassed.succ hrear hreaches
    split_ifs with hend
    · refine .behind (some _) rfl hfront ?_ ⟨rfl, ⟨rfl, rfl⟩, ?_, hpassed'⟩
      · exact Nat.succ_le_succ hrear
      · exact hbest'.lengths_succ (reaches_of_le h.nonneg) fun hle => absurd hle (by omega)
    · refine .inner (some _) rfl hfront ?_ ⟨rfl, ⟨rfl, rfl⟩, hbest', hpassed'⟩
      exact Nat.le_of_not_lt hend
  · split_ifs <;> simp only [Vars.weight, hplace] <;> omega

/-- The window has not reached the target. -/
theorem turn_inner_end (h : Fits nums) (hplace : v.place = .inner) (hfront : v.front < nums.length)
    (hrear : v.rear ≤ v.front) (hholds : v.Holds target nums (v.front + 1)
      (lengthsFrom (Reaches target nums) v.front v.rear) best)
    (hreaches : ¬Reaches target nums v.rear (v.front + 1)) : Advances target nums v := by
  obtain ⟨hsum, hrecords, hbest, hpassed⟩ := hholds
  have hturn : turn target nums v = some (.next { v with place := .behind }) := by
    rw [turn, hplace]
    simp only [if_neg (show ¬v.sum ≥ target from hsum ▸ hreaches)]
  refine ⟨_, hturn, ?_, variant_lt_of_weight rfl ?_⟩
  · refine .behind best rfl hfront (Nat.le_succ_of_le hrear) ⟨hsum, hrecords, ?_, hpassed⟩
    exact hbest.lengths_succ (reaches_of_le h.nonneg) fun _ => hreaches
  · simp only [Vars.weight, hplace]
    omega

/-- The end of the window moves on. -/
theorem turn_behind (h : Fits nums) (hplace : v.place = .behind) (hfront : v.front < nums.length)
    (hrear : v.rear ≤ v.front + 1) (hholds : v.Holds target nums (v.front + 1)
      (lengths (Reaches target nums) (v.front + 1)) best) : Advances target nums v := by
  have hlength := h.length_lt
  have hturn : turn target nums v =
      some (.next { v with front := v.front + 1, place := .outer }) := by
    rw [turn, hplace]
    simp only [increment_eq (show v.front + 1 < 2 ^ 31 by omega), Option.bind_eq_bind,
      Option.bind_some]
  obtain ⟨hsum, hrecords, hbest, hpassed⟩ := hholds
  refine ⟨_, hturn, .outer best rfl hfront hrear ⟨hsum, hrecords, hbest, hpassed⟩, ?_⟩
  rw [Vars.variant, Vars.variant, Prod.Lex.toLex_lt_toLex]
  exact .inl (Nat.sub_lt_sub_left hfront (Nat.lt_succ_self _))

/-- What the function returns when all numbers are read. -/
theorem turn_leave (hplace : v.place = .outer) (hfront : v.front = nums.length)
    (hrecords : v.Records best) (hbest : Best (lengths (Reaches target nums) v.front) best) :
    ∃ r, turn target nums v = some (.leave r) ∧
      ((∃ n : ℕ, r = n ∧ IsLeast (reaching target nums) n) ∨ reaching target nums = ∅ ∧ r = 0) := by
  rw [hfront, ← reaching_eq_lengths] at hbest
  refine ⟨if v.hit then v.minLen else 0, ?_, ?_⟩
  · rw [turn, hplace]
    simp only [hfront, lt_irrefl, if_false]
  · cases best with
    | none =>
      rw [hrecords.1]
      exact .inr ⟨hbest, rfl⟩
    | some n =>
      rw [hrecords.1]
      exact .inl ⟨n, hrecords.2, hbest⟩

/-- The end of the window is an `int`, and the loop is left when it is behind the numbers. -/
theorem front_of_turn {t : Turn Vars ℤ} (hfront : v.front < 2 ^ 31)
    (hturn : turn target nums v = some t) :
    match t with
    | .next v' => v'.front < 2 ^ 31
    | .leave _ => nums.length ≤ v.front := by
  rw [turn] at hturn
  cases hplace : v.place with
  | outer =>
    simp only [hplace, Option.bind_eq_bind] at hturn
    by_cases hlt : v.front < nums.length
    · simp only [if_pos hlt, Option.bind_eq_some_iff] at hturn
      obtain ⟨_, -, _, -, ⟨⟩⟩ := hturn
      exact hfront
    · rw [if_neg hlt] at hturn
      cases hturn
      exact Nat.le_of_not_lt hlt
  | inner =>
    simp only [hplace, Option.bind_eq_bind] at hturn
    split_ifs at hturn
    · simp only [Option.bind_eq_some_iff] at hturn
      obtain ⟨_, -, _, -, _, -, _, -, _, -, ⟨⟩⟩ := hturn
      exact hfront
    · cases hturn
      exact hfront
  | behind =>
    simp only [hplace, Option.bind_eq_bind] at hturn
    obtain ⟨front, hincrement, hturn⟩ := Option.bind_eq_some_iff.mp hturn
    cases hturn
    exact increment_lt hincrement

/-- A counter never reaches a size that does not fit. -/
theorem not_returns_of_length_ge (hlarge : 2 ^ 31 ≤ nums.length) {r : ℤ} :
    ¬Returns (turn target nums) start r := by
  apply Returns.post (fun v => v.front < 2 ^ 31) (fun _ => False)
  · intro v v' hfront hturn
    exact front_of_turn hfront hturn
  · intro v r hfront hturn
    have hle : nums.length ≤ v.front := front_of_turn hfront hturn
    omega
  · exact Nat.two_pow_pos 31

/-- Every turn goes on, or leaves the loop with the result. -/
theorem advances_or_leaves (h : Fits nums) (hinv : v.Inv target nums) :
    Advances target nums v ∨ ∃ r, turn target nums v = some (.leave r) ∧
      ((∃ n : ℕ, r = n ∧ IsLeast (reaching target nums) n) ∨ reaching target nums = ∅ ∧ r = 0) := by
  cases hinv with
  | outer best hplace hfront hrear hholds =>
    rcases Nat.lt_or_eq_of_le hfront with hlt | heq
    · exact .inl (turn_outer h hplace hlt hrear hholds)
    · exact .inr (turn_leave hplace heq hholds.records hholds.best)
  | inner best hplace hfront hrear hholds =>
    left
    by_cases hreaches : Reaches target nums v.rear (v.front + 1)
    · exact turn_inner h hplace hfront hrear hholds hreaches
    · exact turn_inner_end h hplace hfront hrear hholds hreaches
  | behind best hplace hfront hrear hholds => exact .inl (turn_behind h hplace hfront hrear hholds)

/-- For numbers that are not negative and have a sum that fits, the function finds the least length
exactly if the size of the array fits. -/
theorem findsMinimum_iff (hnonneg : ∀ x ∈ nums, 0 ≤ x) (hsum : nums.sum < 2 ^ 31) :
    FindsMinimum target nums ↔ nums.length < 2 ^ 31 := by
  constructor
  · rintro ⟨limit, r, hrun, -⟩
    by_contra hlarge
    exact not_returns_of_length_ge (Nat.le_of_not_lt hlarge) ⟨limit, hrun⟩
  · intro hlength
    have hfits : Fits nums := ⟨hnonneg, hsum, hlength⟩
    have hstart : start.Inv target nums :=
      .outer none rfl (Nat.zero_le _) le_rfl ⟨rfl, ⟨rfl, rfl⟩, best_lengths_zero _, nofun⟩
    obtain ⟨r, ⟨limit, hrun⟩, hpost⟩ :=
      exists_returns (Vars.Inv target nums) _ (Vars.variant nums)
        (fun v hinv => advances_or_leaves hfits hinv) hstart
    exact ⟨limit, r, hrun, hpost⟩

/-- The array of the numbers 2, 3, 1, 2, 4, 3 and the target 7. -/
theorem findsMinimum_seven : FindsMinimum 7 [2, 3, 1, 2, 4, 3] :=
  (findsMinimum_iff (by decide) (by decide)).mpr (by decide)

/-- An array of `2 ^ 31` zeros with a one behind them is not read to its end. -/
theorem not_findsMinimum_replicate : ¬FindsMinimum 1 (List.replicate (2 ^ 31) 0 ++ [1]) := by
  rintro ⟨limit, r, hrun, -⟩
  refine not_returns_of_length_ge ?_ ⟨limit, hrun⟩
  rw [List.length_append, List.length_replicate]
  omega

end Hack.MinSubArray
