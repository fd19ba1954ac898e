import Hack.Cpp
import Mathlib.Data.List.Count

/-!
# The ransom note

This file embeds `canConstruct` of `0xetc/0xcc/hashmap/ransom-note`. The characters of a magazine
are counted in a map, and those of a note are taken out of it. The sizes of both strings are kept
as `int`, so that of longer strings only a part is read, or none at all.
-/

namespace Hack.RansomNote

open Cpp Function

/-- `map<char, int>`. -/
abbrev CountMap := UInt8 → Option ℤ

/-- A turn of the loop over the magazine. -/
def countChar (magMap : CountMap) (mkey : UInt8) : Option CountMap :=
  match magMap mkey with
  | none => some (update magMap mkey (some 1))
  | some n => (int (n + 1)).map fun n => update magMap mkey (some n)

/-- The loop over the note, with its two early ends. -/
def takeChars : CountMap → List UInt8 → Option Bool
  | _, [] => some true
  | magMap, rkey :: ransomNote =>
    match magMap rkey with
    | none => some false
    | some n => (int (n - 1)).bind fun count =>
      if count < 0 then some false
      else takeChars (update magMap rkey (some count)) ransomNote

/-- `canConstruct`. -/
def canConstruct (ransomNote magazine : List UInt8) : Option Bool :=
  ((visited magazine).foldlM countChar fun _ => none).bind fun magMap =>
    takeChars magMap (visited ransomNote)

/-- Every character occurs in the magazine at least as often as in the note. -/
def Supplies (magazine ransomNote : List UInt8) : Prop :=
  ∀ c, ransomNote.count c ≤ magazine.count c

/-- The function ends and tells whether the magazine has the characters of the note. -/
def AnswersNote (ransomNote magazine : List UInt8) : Prop :=
  ∃ result, canConstruct ransomNote magazine = some result ∧
    (result = true ↔ Supplies magazine ransomNote)

variable {magMap : CountMap} {ransomNote magazine front : List UInt8}

/-- The map after the characters of a string were counted. -/
def counts (front : List UInt8) : CountMap :=
  fun c => if c ∈ front then some (front.count c) else none

/-- A character is counted. -/
theorem countChar_counts (hlength : front.length + 1 < 2 ^ 31) (c : UInt8) :
    countChar (counts front) c = some (counts (front ++ [c])) := by
  have hcount : front.count c ≤ front.length := List.count_le_length
  have hupdate : update (counts front) c (some (front.count c + 1)) =
      counts (front ++ [c]) := by
    funext b
    rcases eq_or_ne b c with rfl | hne
    · simp [counts]
    · simp [counts, hne, hne.symm]
  by_cases hmem : c ∈ front
  · have hget : counts front c = some (front.count c : ℤ) := if_pos hmem
    simp only [countChar, hget, int_eq (show -2 ^ 31 ≤ (front.count c : ℤ) + 1 by omega)
      (by omega), Option.map_some, hupdate]
  · have hget : counts front c = none := if_neg hmem
    rw [List.count_eq_zero_of_not_mem hmem] at hupdate
    simp only [countChar, hget, ← hupdate]
    rfl

/-- The loop over the magazine counts its characters. -/
theorem foldlM_countChar (front magazine : List UInt8)
    (hlength : front.length + magazine.length < 2 ^ 31) :
    magazine.foldlM countChar (counts front) = some (counts (front ++ magazine)) := by
  induction magazine generalizing front with
  | nil =>
    rw [List.foldlM_nil, List.append_nil]
    rfl
  | cons c magazine ih =>
    rw [List.length_cons] at hlength
    rw [List.foldlM_cons, countChar_counts (by omega), Option.bind_eq_bind, Option.bind_some, ih,
      List.append_assoc, List.singleton_append]
    rw [List.length_append, List.length_singleton]
    omega

/-- The counts of a map are natural numbers that fit. -/
def CountsFit (magMap : CountMap) : Prop := ∀ c n, magMap c = some n → 0 ≤ n ∧ n < 2 ^ 31

/-- A smaller count is put into a map. -/
theorem CountsFit.update (h : CountsFit magMap) (rkey : UInt8) {n : ℤ} (hge : 0 ≤ n)
    (hlt : n < 2 ^ 31) : CountsFit (update magMap rkey (some n)) := by
  intro c m hm
  rcases eq_or_ne c rkey with rfl | hne
  · rw [update_self] at hm
    cases hm
    exact ⟨hge, hlt⟩
  · rw [update_of_ne hne] at hm
    exact h c m hm

/-- A character is taken from the note and from the map. -/
theorem count_le_update_iff {rkey : UInt8} {n : ℤ} (hget : magMap rkey = some n) (c : UInt8) :
    (ransomNote.count c : ℤ) ≤ (update magMap rkey (some (n - 1)) c).getD 0 ↔
      ((rkey :: ransomNote).count c : ℤ) ≤ (magMap c).getD 0 := by
  rcases eq_or_ne c rkey with rfl | hne
  · rw [update_self, hget, List.count_cons_self, Option.getD_some, Option.getD_some]
    omega
  · rw [update_of_ne hne, List.count_cons_of_ne hne.symm]

/-- The loop over the note tells whether its characters are left in the map. -/
theorem exists_takeChars (ransomNote : List UInt8) (hcounts : CountsFit magMap) :
    ∃ result, takeChars magMap ransomNote = some result ∧
      (result = true ↔ ∀ c, (ransomNote.count c : ℤ) ≤ (magMap c).getD 0) := by
  induction ransomNote generalizing magMap with
  | nil =>
    refine ⟨true, rfl, iff_of_true rfl ?_⟩
    intro c
    cases hget : magMap c with
    | none => exact Int.le_refl 0
    | some n => exact (hcounts c n hget).1
  | cons rkey ransomNote ih =>
    rw [takeChars]
    cases hget : magMap rkey with
    | none =>
      refine ⟨false, rfl, iff_of_false Bool.false_ne_true ?_⟩
      intro hall
      have hle := hall rkey
      rw [hget, List.count_cons_self, Option.getD_none] at hle
      omega
    | some n =>
      obtain ⟨hge, hlt⟩ := hcounts rkey n hget
      simp only [int_eq (show -2 ^ 31 ≤ n - 1 by omega) (by omega), Option.bind_some]
      split_ifs with hnone
      · refine ⟨false, rfl, iff_of_false Bool.false_ne_true ?_⟩
        intro hall
        have hle := hall rkey
        rw [hget, List.count_cons_self, Option.getD_some] at hle
        omega
      · obtain ⟨result, hresult, hiff⟩ :=
          ih (hcounts.update rkey (Int.not_lt.mp hnone) (by omega))
        exact ⟨result, hresult, hiff.trans (forall_congr' (count_le_update_iff hget))⟩

/-- The function answers for the characters that it reads. -/
theorem exists_canConstruct (ransomNote magazine : List UInt8) :
    ∃ result, canConstruct ransomNote magazine = some result ∧
      (result = true ↔ Supplies (visited magazine) (visited ransomNote)) := by
  have hlength := length_visited_lt magazine
  have hcount := foldlM_countChar [] (visited magazine) (by rw [List.length_nil]; omega)
  rw [List.nil_append] at hcount
  have hcounts : CountsFit (counts (visited magazine)) := by
    intro c n hget
    have hle : (visited magazine).count c ≤ (visited magazine).length := List.count_le_length
    rw [counts] at hget
    split_ifs at hget
    cases hget
    omega
  obtain ⟨result, hresult, hiff⟩ := exists_takeChars (visited ransomNote) hcounts
  refine ⟨result, ?_, hiff.trans ?_⟩
  · have hempty : counts [] = fun _ => none := by
      funext c
      exact if_neg List.not_mem_nil
    rw [canConstruct, ← hempty, hcount, Option.bind_some, hresult]
  · apply forall_congr'
    intro c
    rw [counts]
    split_ifs with hmem
    · exact Int.ofNat_le
    · rw [List.count_eq_zero_of_not_mem hmem]
      exact Int.ofNat_le

/-- The function answers right exactly if the characters that it does not read make no
difference. -/
theorem answersNote_iff (ransomNote magazine : List UInt8) : AnswersNote ransomNote magazine ↔
      (Supplies (visited magazine) (visited ransomNote) ↔ Supplies magazine ransomNote) := by
  obtain ⟨result, hresult, hiff⟩ := exists_canConstruct ransomNote magazine
  constructor
  · rintro ⟨result', hresult', hiff'⟩
    cases hresult.symm.trans hresult'
    exact hiff.symm.trans hiff'
  · intro hsame
    exact ⟨result, hresult, hiff.trans hsame⟩

/-- Of a note with `2 ^ 31` characters nothing is read. -/
theorem not_answersNote_replicate : ¬AnswersNote (List.replicate (2 ^ 31) 97) [] := by
  rintro ⟨result, hresult, hiff⟩
  obtain ⟨result', hresult', hiff'⟩ := exists_canConstruct (List.replicate (2 ^ 31) 97) []
  cases hresult.symm.trans hresult'
  have hread : visited (List.replicate (2 ^ 31) (97 : UInt8)) = [] := by
    have hlength : (List.replicate (2 ^ 31) (97 : UInt8)).length = 2 ^ 31 := List.length_replicate
    exact visited_eq_nil (by omega) (by omega)
  rw [hread] at hiff'
  have hsupplies := hiff.mp (hiff'.mpr fun c => Nat.zero_le _) 97
  rw [List.count_replicate_self, List.count_nil] at hsupplies
  omega

end Hack.RansomNote
