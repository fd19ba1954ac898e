import Hack.Cpp
import Hack.Loop
import Mathlib.Algebra.Order.Ring.Int
import Mathlib.Data.List.GetD
import Mathlib.Order.Bounds.Basic

/-!
# The container with most water

This file embeds `maxArea` of `0xetc/0xcc/two-pointers/container-with-most-water`. Two pointers
start at the ends of an array of heights, and the lower of the two is moved inwards. With the
height it leaves no other container is wider, so that no pair that is passed over is better than
one that was looked at. The position of the last height is kept as an `int`, so that of a longer
array only a part is read, or none at all.
-/

namespace Hack.MaxArea

open Cpp Loop

/-- The variables of the function. -/
structure Vars where
  top : ℤ
  front : ℤ
  rear : ℤ

/-- The larger one of the best result and a new one. -/
def better (top thisResult : ℤ) : ℤ := if thisResult > top then thisResult else top

/-- A turn of the loop. -/
def turn (height : List ℤ) (v : Vars) : Option (Turn Vars ℤ) :=
  if v.front ≠ v.rear then do
    let hFront ← element height v.front
    let hRear ← element height v.rear
    let distance ← int (v.rear - v.front)
    if hFront > hRear then do
      let rear ← int (v.rear - 1)
      let thisResult ← int (hRear * distance)
      some (.next { v with rear, top := better v.top thisResult })
    else do
      let front ← int (v.front + 1)
      let thisResult ← int (hFront * distance)
      some (.next { v with front, top := better v.top thisResult })
  else some (.leave v.top)

/-- The position of the last height, converted to `int`. -/
def last (height : List ℤ) : ℤ := Int.bmod (height.length - 1) (2 ^ 32)

/-- `maxArea`, with a limit on its turns. -/
def maxArea (height : List ℤ) (limit : ℕ) : Option (Option ℤ) :=
  run (turn height) limit ⟨0, 0, last height⟩

/-- The water between two heights. -/
def area (height : List ℤ) (i j : ℕ) : ℤ := min (height.getD i 0) (height.getD j 0) * (j - i)

/-- The areas of the pairs before a position. -/
def areas (height : List ℤ) (bound : ℕ) : Set ℤ :=
  {a | ∃ i j, i < j ∧ j < bound ∧ a = area height i j}

/-- The function ends and returns the largest area, or zero if there is no pair. -/
def FindsMax (height : List ℤ) : Prop :=
  ∃ limit r, maxArea height limit = some (some r) ∧
    (IsGreatest (areas height height.length) r ∨ areas height height.length = ∅ ∧ r = 0)

/-- The converted position is not negative, and no pair behind it has a larger area than all pairs
up to it. -/
def ReadsMax (height : List ℤ) : Prop :=
  0 ≤ last height ∧ ∀ a ∈ areas height height.length,
    a = 0 ∨ ∃ b ∈ areas height (last height + 1).toNat, a ≤ b

variable {height : List ℤ} {i j f r bound : ℕ} {v : Vars}

/-! ### Areas -/

section Areas

variable (hnonneg : ∀ x ∈ height, 0 ≤ x)
include hnonneg

theorem getD_nonneg (i : ℕ) : 0 ≤ height.getD i 0 := by
  rcases Nat.lt_or_ge i height.length with hlt | hge
  · rw [List.getD_eq_getElem height 0 hlt]
    exact hnonneg _ (List.getElem_mem hlt)
  · rw [List.getD_eq_default height 0 hge]

theorem area_nonneg (hij : i < j) : 0 ≤ area height i j := by
  apply Int.mul_nonneg
  · exact le_min (getD_nonneg hnonneg i) (getD_nonneg hnonneg j)
  · omega

theorem nonneg_of_mem_areas {a : ℤ} (ha : a ∈ areas height bound) : 0 ≤ a := by
  obtain ⟨i, j, hij, -, rfl⟩ := ha
  exact area_nonneg hnonneg hij

/-- With the height at its rear a container is not larger when its front is moved inwards. -/
theorem area_le_of_rear (hlower : height.getD r 0 ≤ height.getD f 0) (hfi : f ≤ i) (hir : i < r) :
    area height i r ≤ area height f r := by
  rw [area, area, min_eq_right hlower]
  apply mul_le_mul (min_le_right _ _)
  · omega
  · omega
  · exact getD_nonneg hnonneg r

/-- With the height at its front a container is not larger when its rear is moved inwards. -/
theorem area_le_of_front (hlower : height.getD f 0 ≤ height.getD r 0) (hfj : f < j) (hjr : j ≤ r) :
    area height f j ≤ area height f r := by
  rw [area, area, min_eq_left hlower]
  apply mul_le_mul (min_le_left _ _)
  · omega
  · omega
  · exact getD_nonneg hnonneg f

end Areas

theorem areas_mono {bound' : ℕ} (hle : bound ≤ bound') :
    areas height bound ⊆ areas height bound' := by
  rintro a ⟨i, j, hij, hj, rfl⟩
  exact ⟨i, j, hij, by omega, rfl⟩

/-! ### The loop -/

/-- What holds before every turn: the best result is one of the areas or zero, and every pair is
between the pointers or has no larger area. -/
structure Vars.Inv (height : List ℤ) (bound f r : ℕ) (v : Vars) : Prop where
  front_eq : v.front = f
  rear_eq : v.rear = r
  front_le : f ≤ r
  rear_lt : r < bound
  top_nonneg : 0 ≤ v.top
  top_mem : v.top = 0 ∨ v.top ∈ areas height bound
  le_top : ∀ i j, i < j → j < bound → f ≤ i ∧ j ≤ r ∨ area height i j ≤ v.top

/-- Heights that are not negative, with areas and positions that fit. -/
structure Fits (height : List ℤ) (bound : ℕ) : Prop where
  nonneg : ∀ x ∈ height, 0 ≤ x
  area_lt : ∀ a ∈ areas height height.length, a < 2 ^ 31
  bound_le : bound ≤ height.length
  bound_lt : bound ≤ 2 ^ 31

/-- A pair that is looked at is one of the results. -/
theorem Vars.Inv.better_area (hinv : v.Inv height bound f r) (hfr : f < r) :
    v.top ≤ better v.top (area height f r) ∧ area height f r ≤ better v.top (area height f r) ∧
      (better v.top (area height f r) = 0 ∨
        better v.top (area height f r) ∈ areas height bound) := by
  rw [better]
  split_ifs with hgt
  · exact ⟨le_of_lt hgt, le_rfl, .inr ⟨f, r, hfr, hinv.rear_lt, rfl⟩⟩
  · exact ⟨le_rfl, le_of_not_gt hgt, hinv.top_mem⟩

section Turn

variable (h : Fits height bound) (hinv : v.Inv height bound f r) (hfr : f < r)
include h hinv hfr

/-- A turn looks at the pair of the pointers and moves the lower one. -/
theorem turn_eq : turn height v = some (.next
      (if height.getD r 0 < height.getD f 0 then
        { v with rear := (r - 1 : ℕ), top := better v.top (area height f r) }
      else { v with front := (f + 1 : ℕ), top := better v.top (area height f r) })) := by
  have hbound := hinv.rear_lt
  have hlength := h.bound_le
  have hlt := h.bound_lt
  have hfits := h.area_lt _ ⟨f, r, hfr, by omega, rfl⟩
  have hge := area_nonneg h.nonneg hfr
  have hdistance : int ((r : ℤ) - f) = some ((r : ℤ) - f) := int_eq (by omega) (by omega)
  have hresult : int (area height f r) = some (area height f r) := int_eq (by omega) hfits
  rw [turn, hinv.front_eq, hinv.rear_eq, if_pos (by omega), element_natCast, element_natCast,
    List.getElem?_eq_getElem (show f < height.length by omega),
    List.getElem?_eq_getElem (show r < height.length by omega),
    ← List.getD_eq_getElem height 0, ← List.getD_eq_getElem height 0]
  simp only [Option.bind_eq_bind, Option.bind_some, hdistance]
  split_ifs with hlower
  · have hproduct : height.getD r 0 * (r - f) = area height f r := by
      rw [area, min_eq_right (le_of_lt hlower)]
    have hrear : int ((r : ℤ) - 1) = some ((r - 1 : ℕ) : ℤ) := by
      rw [int_eq (by omega) (by omega)]
      congr 1
      omega
    rw [hrear, hproduct, hresult]
    rfl
  · have hproduct : height.getD f 0 * (r - f) = area height f r := by
      rw [area, min_eq_left (le_of_not_gt hlower)]
    have hfront : int ((f : ℤ) + 1) = some ((f + 1 : ℕ) : ℤ) := int_eq (by omega) (by omega)
    rw [hfront, hproduct, hresult]
    rfl

/-- The rear is moved inwards. -/
theorem Vars.Inv.rear (hlower : height.getD r 0 ≤ height.getD f 0) : Vars.Inv height bound f (r - 1)
      { v with rear := (r - 1 : ℕ), top := better v.top (area height f r) } := by
  have hbound := hinv.rear_lt
  obtain ⟨htop, harea, hmem⟩ := hinv.better_area hfr
  refine ⟨hinv.front_eq, rfl, by omega, by omega, le_trans hinv.top_nonneg htop, hmem, ?_⟩
  intro i j hij hj
  rcases hinv.le_top i j hij hj with ⟨hi, hjr⟩ | hsmall
  · -- The pairs with the old rear are passed over.
    rcases Nat.lt_or_eq_of_le hjr with hlt | rfl
    · exact .inl ⟨hi, by omega⟩
    · exact .inr (le_trans (area_le_of_rear h.nonneg hlower hi hij) harea)
  · exact .inr (le_trans hsmall htop)

/-- The front is moved inwards. -/
theorem Vars.Inv.front (hlower : height.getD f 0 ≤ height.getD r 0) :
    Vars.Inv height bound (f + 1) r
      { v with front := (f + 1 : ℕ), top := better v.top (area height f r) } := by
  obtain ⟨htop, harea, hmem⟩ := hinv.better_area hfr
  refine ⟨rfl, hinv.rear_eq, hfr, hinv.rear_lt, le_trans hinv.top_nonneg htop, hmem, ?_⟩
  intro i j hij hj
  rcases hinv.le_top i j hij hj with ⟨hi, hjr⟩ | hsmall
  · -- The pairs with the old front are passed over.
    rcases Nat.lt_or_eq_of_le hi with hlt | rfl
    · exact .inl ⟨hlt, hjr⟩
    · exact .inr (le_trans (area_le_of_front h.nonneg hlower hij hjr) harea)
  · exact .inr (le_trans hsmall htop)

end Turn

/-- The loop ends with the largest area before the bound. -/
theorem exists_returns_of_fits (h : Fits height bound) (hpos : 0 < bound) :
    ∃ r, Returns (turn height) ⟨0, 0, (bound - 1 : ℕ)⟩ r ∧ 0 ≤ r ∧
      (r = 0 ∨ r ∈ areas height bound) ∧ ∀ a ∈ areas height bound, a ≤ r := by
  apply exists_returns (fun v => ∃ f r, v.Inv height bound f r) _
    (fun v => (v.rear - v.front).toNat)
  · rintro v ⟨f, r, hinv⟩
    rcases Nat.lt_or_eq_of_le hinv.front_le with hfr | rfl
    · left
      have hfront := hinv.front_eq
      have hrear := hinv.rear_eq
      rw [turn_eq h hinv hfr]
      refine ⟨_, rfl, ?_⟩
      split_ifs with hlower
      · refine ⟨⟨f, r - 1, hinv.rear h hfr (le_of_lt hlower)⟩, ?_⟩
        simp only
        omega
      · refine ⟨⟨f + 1, r, hinv.front h hfr (le_of_not_gt hlower)⟩, ?_⟩
        simp only
        omega
    · right
      refine ⟨v.top, ?_, hinv.top_nonneg, hinv.top_mem, ?_⟩
      · rw [turn, hinv.front_eq, hinv.rear_eq, if_neg (not_not_intro rfl)]
      · rintro a ⟨i, j, hij, hj, rfl⟩
        rcases hinv.le_top i j hij hj with ⟨hi, hjr⟩ | hle
        · omega
        · exact hle
  · refine ⟨0, bound - 1, rfl, rfl, Nat.zero_le _, by omega, le_rfl, .inl rfl, ?_⟩
    intro i j hij hj
    exact .inl ⟨Nat.zero_le _, by omega⟩

/-- The converted position is an `int` and not behind the last one. -/
theorem last_bounds (height : List ℤ) : last height < 2 ^ 31 ∧ last height < height.length := by
  unfold last
  rw [Int.bmod_def]
  omega

/-- A pointer that starts at a negative position is outside of the array. -/
theorem not_returns_of_last_neg (hneg : last height < 0) {r : ℤ} :
    ¬Returns (turn height) ⟨0, 0, last height⟩ r := by
  apply not_returns_of_fault
  have hrear : element height (last height) = none := if_pos hneg
  simp only [turn, if_pos (show (0 : ℤ) ≠ last height by omega), hrear, Option.bind_eq_bind,
    Option.bind_none, Option.bind_fun_none]

/-- The largest area of the pairs that are read is the largest one of all exactly if no other pair
is better. -/
theorem greatest_or_empty_iff (hnonneg : ∀ x ∈ height, 0 ≤ x) {r : ℤ} (hr : 0 ≤ r)
    (hle : bound ≤ height.length) (hmem : r = 0 ∨ r ∈ areas height bound)
    (hupper : ∀ a ∈ areas height bound, a ≤ r) :
    (IsGreatest (areas height height.length) r ∨ areas height height.length = ∅ ∧ r = 0) ↔
      ∀ a ∈ areas height height.length, a = 0 ∨ ∃ b ∈ areas height bound, a ≤ b := by
  constructor
  · rintro (⟨-, hgreatest⟩ | ⟨hempty, -⟩) a ha
    · rcases hmem with rfl | hmem
      · exact .inl (le_antisymm (hgreatest ha) (nonneg_of_mem_areas hnonneg ha))
      · exact .inr ⟨r, hmem, hgreatest ha⟩
    · rw [hempty] at ha
      cases ha
  · intro hbetter
    have hgreatest : ∀ a ∈ areas height height.length, a ≤ r := by
      intro a ha
      rcases hbetter a ha with rfl | ⟨b, hb, hab⟩
      · exact hr
      · exact le_trans hab (hupper b hb)
    rcases hmem with rfl | hmem
    · rcases Set.eq_empty_or_nonempty (areas height height.length) with hempty | ⟨a, ha⟩
      · exact .inr ⟨hempty, rfl⟩
      · have hzero : a = 0 := le_antisymm (hgreatest a ha) (nonneg_of_mem_areas hnonneg ha)
        exact .inl ⟨hzero ▸ ha, hgreatest⟩
    · exact .inl ⟨areas_mono hle hmem, hgreatest⟩

/-- For heights that are not negative and areas that fit, the function finds the largest area
exactly if it reads a pair that has it. -/
theorem findsMax_iff (hnonneg : ∀ x ∈ height, 0 ≤ x)
    (harea : ∀ a ∈ areas height height.length, a < 2 ^ 31) :
    FindsMax height ↔ ReadsMax height := by
  obtain ⟨hlt, hlength⟩ := last_bounds height
  rcases lt_or_ge (last height) 0 with hneg | hpos
  · refine iff_of_false ?_ fun h => not_le_of_gt hneg h.1
    rintro ⟨limit, r, hrun, -⟩
    exact not_returns_of_last_neg hneg ⟨limit, hrun⟩
  · generalize hbound : (last height + 1).toNat = bound
    have hlast : last height = (bound - 1 : ℕ) := by omega
    have hle : bound ≤ height.length := by omega
    obtain ⟨r, hreturns, hr, hmem, hupper⟩ :=
      exists_returns_of_fits ⟨hnonneg, harea, hle, by omega⟩ (show 0 < bound by omega)
    rw [ReadsMax, hbound, and_iff_right hpos, ← greatest_or_empty_iff hnonneg hr hle hmem hupper]
    constructor
    · rintro ⟨limit, r', hrun, hspec⟩
      rw [maxArea, hlast] at hrun
      rwa [hreturns.unique ⟨limit, hrun⟩]
    · intro hspec
      obtain ⟨limit, hrun⟩ := hreturns
      refine ⟨limit, r, ?_, hspec⟩
      rw [maxArea, hlast]
      exact hrun

/-- An array that has at most `2 ^ 31` heights is read to its end. -/
theorem readsMax_of_length_le (hne : height ≠ []) (hlength : height.length ≤ 2 ^ 31) :
    ReadsMax height := by
  have hpos := List.length_pos_of_ne_nil hne
  have hlast : last height = height.length - 1 := by
    unfold last
    rw [Int.bmod_def]
    omega
  refine ⟨by omega, fun a ha => .inr ⟨a, ?_, le_rfl⟩⟩
  rw [show (last height + 1).toNat = height.length by omega]
  exact ha

/-- The nine heights of the well-known example. -/
theorem findsMax_nine : FindsMax [1, 8, 6, 2, 5, 4, 8, 3, 7] := by
  refine (findsMax_iff (by decide) ?_).mpr (readsMax_of_length_le (by decide) (by decide))
  rintro a ⟨i, j, hij, hj, rfl⟩
  have hall : ∀ j < 9, ∀ i < j, area [1, 8, 6, 2, 5, 4, 8, 3, 7] i j < 2 ^ 31 := by decide
  exact hall j hj i hij

/-- For `2 ^ 31 + 1` heights of zero the converted position is negative. -/
theorem not_findsMax_replicate : ¬FindsMax (List.replicate (2 ^ 31 + 1) 0) := by
  rintro ⟨limit, r, hrun, -⟩
  refine not_returns_of_last_neg ?_ ⟨limit, hrun⟩
  unfold last
  rw [List.length_replicate, Int.bmod_def]
  omega

end Hack.MaxArea
