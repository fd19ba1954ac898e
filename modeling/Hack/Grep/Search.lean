import Hack.Grep.Input
import Mathlib.Data.List.Forall2

/-!
# Searching the rows of grep

This file embeds `BITGREP_PopulateSearchResult` and the part of `main` that reads, searches,
and reports. The result is specified without the program: the numbers of the rows that
contain the target in increasing order, with what each of these rows holds from the first
occurrence on.
-/

namespace Hack.Grep

open BlockHeap (ptrdiffMax)
open CString

/-- `BITGREP_FOUND`. -/
structure Found where
  foundCount : ℕ
  foundIndex : List ℕ
  buffFound : List (List UInt8)

/-- `BITGREP_PopulateSearchResult`, from row `i` on. -/
def searchFrom (heap : Heap) (target : List UInt8) (in2d : Input2d) (found : Found) (i : ℕ) :
    Option (ℤ × Found) :=
  if i < in2d.rowCount then
    (in2d.buff2d[i]?).bind fun row =>
    (strstr row target).bind fun
    | none => searchFrom heap target in2d found (i + 1)
    | some offset =>
      (pushBackInt heap found.foundCount found.foundIndex i).bind fun (status, foundIndex) =>
      if status < 0 then some (-1, { found with foundIndex })
      else
        (pushBackString heap found.foundCount found.buffFound (row.drop offset)).bind
          fun (status, buffFound) =>
          if status < 0 then some (-2, { found with foundIndex, buffFound })
          else searchFrom heap target in2d ⟨found.foundCount + 1, foundIndex, buffFound⟩ (i + 1)
  else some (0, found)
termination_by in2d.rowCount - i

/-- `BITGREP_PopulateSearchResult`. -/
def populateSearchResult (heap : Heap) (target : List UInt8) (in2d : Input2d) (found : Found) :
    Option (ℤ × Found) :=
  searchFrom heap target in2d found 0

/-- What `main` does with a target, up to the report: its exit status, and the rows and the
result as far as they are there. -/
def find (heap : Heap) (target : List UInt8) (stdin : Stdin) : Option (ℤ × Input2d × Found) :=
  (mapStdinTo2d heap stdin ⟨0, []⟩).bind fun (status, in2d) =>
    if status < 0 then some (-2, in2d, ⟨0, [], []⟩)
    else
      (populateSearchResult heap target in2d ⟨0, [], []⟩).map fun (status, found) =>
        if status < 0 then (-3, in2d, found) else (0, in2d, found)

/-- The specification of the search: `found` has the numbers of the rows that contain the
target in increasing order, and for each of them the string from the first occurrence on. -/
structure Found.Reports (found : Found) (target : List UInt8) (rows : List (List UInt8)) :
    Prop where
  count : found.foundCount = found.foundIndex.length
  increasing : found.foundIndex.Pairwise (· < ·)
  complete : ∀ i, i ∈ found.foundIndex ↔ ∃ row, rows[i]? = some row ∧ target <:+: row
  strings : List.Forall₂ (fun i block => ∃ row offset, rows[i]? = some row ∧
    cstr block = some (row.drop offset) ∧ target <+: row.drop offset ∧
    ∀ j < offset, ¬target <+: row.drop j) found.foundIndex found.buffFound

/-- The rows in which the target occurs, numbered from `i` on, with their strings from the
first occurrence on. -/
def hits (target : List UInt8) : ℕ → List (List UInt8) → List (ℕ × List UInt8)
  | _, [] => []
  | i, row :: rows => match leftmost target row with
    | none => hits target (i + 1) rows
    | some offset => (i, row.drop offset) :: hits target (i + 1) rows

variable {heap : Heap} {target : List UInt8} {rows : List (List UInt8)} {i : ℕ} {input : List UInt8}

/-- What the program computes for a row in which the target occurs. -/
def Found.add (found : Found) (hits : List (ℕ × List UInt8)) : Found :=
  ⟨found.foundCount + hits.length, found.foundIndex ++ hits.map Prod.fst,
    found.buffFound ++ hits.map fun hit => hit.2 ++ [0]⟩

/-- Hits are added one by one. -/
theorem Found.add_cons (found : Found) (hit : ℕ × List UInt8) (hits : List (ℕ × List UInt8)) :
    found.add (hit :: hits) = (found.add [hit]).add hits := by
  simp [Found.add, Nat.add_assoc, Nat.add_comm 1]

/-- The program appends the hits to its result. -/
theorem searchFrom_eq (hheap : heap.Ample) (htarget : 0 ∉ target) (room : List UInt8)
    (hzero : ∀ row ∈ rows, 0 ∉ row) (hlengths : ∀ row ∈ rows, row.length < 2 ^ 31)
    (hcount : rows.length < 2 ^ 31) {found : Found}
    (hindex : found.foundIndex.length = found.foundCount)
    (hstrings : found.buffFound.length = found.foundCount) (hfound : found.foundCount ≤ i) :
    searchFrom heap (target ++ 0 :: room) ⟨rows.length, rows.map (· ++ [0])⟩ found i =
      some (0, found.add (hits target i (rows.drop i))) := by
  induction hn : rows.length - i generalizing i found with
  | zero =>
    rw [searchFrom, if_neg (by simp only; omega), List.drop_of_length_le (by omega)]
    simp [hits, Found.add]
  | succ n ih =>
    have hi : i < rows.length := by omega
    have hrow : (rows.map (· ++ [(0 : UInt8)]))[i]? = some (rows[i] ++ [0]) := by
      rw [List.getElem?_map, List.getElem?_eq_getElem hi, Option.map_some]
    have hmem : rows[i] ∈ rows := List.getElem_mem hi
    rw [searchFrom, if_pos hi]
    simp only [hrow, Option.bind_some, strstr_eq (hzero _ hmem) htarget,
      List.drop_eq_getElem_cons hi, hits]
    cases hleftmost : leftmost target rows[i] with
    | none => exact ih hindex hstrings (by omega) (by omega)
    | some offset =>
      obtain ⟨hoffset, -, -⟩ := leftmost_eq_some_iff.mp hleftmost
      have hsuffix : 0 ∉ rows[i].drop offset := fun h => hzero _ hmem (List.mem_of_mem_drop h)
      have hshort : (rows[i].drop offset).length < 2 ^ 31 := by
        have hlength := hlengths _ hmem
        rw [List.length_drop]
        omega
      have hint : pushBackInt heap found.foundCount found.foundIndex i =
          some (0, found.foundIndex ++ [i]) := by
        rw [pushBackInt, ← hindex, hheap.pushBack (by decide) _ (by omega), Option.map_some]
      have hstring := hheap.pushBackString found.buffFound (by omega) hsuffix hshort []
      rw [hstrings] at hstring
      simp only [hint, List.drop_append_of_le_length hoffset, hstring, Option.bind_some,
        Int.lt_irrefl, if_false]
      rw [Found.add_cons]
      exact ih (by simp [hindex]) (by simp [hstrings]) (by simp only; omega) (by omega)

/-- What the hits are. -/
theorem mem_hits_iff {k : ℕ} {s : List UInt8} : (k, s) ∈ hits target i rows ↔
    ∃ j row offset, k = i + j ∧ rows[j]? = some row ∧ leftmost target row = some offset ∧
      s = row.drop offset := by
  induction rows generalizing i with
  | nil => simp [hits]
  | cons row rows ih =>
    -- A row number is that of the first row or one more than a number among the others.
    have hrest : (k, s) ∈ hits target (i + 1) rows ↔ ∃ j row' offset, k = i + (j + 1) ∧
        (row :: rows)[j + 1]? = some row' ∧ leftmost target row' = some offset ∧
        s = row'.drop offset := by
      simp only [ih, List.getElem?_cons_succ, Nat.add_assoc, Nat.add_comm 1]
    have hfirst : (∃ offset, leftmost target row = some offset ∧ (k, s) = (i, row.drop offset)) ↔
        ∃ row' offset, k = i + 0 ∧ (row :: rows)[0]? = some row' ∧
          leftmost target row' = some offset ∧ s = row'.drop offset := by
      simp only [List.getElem?_cons_zero, Option.some_inj, Prod.mk.injEq, Nat.add_zero]
      constructor
      · rintro ⟨offset, hoffset, hk, hs⟩
        exact ⟨row, offset, hk, rfl, hoffset, hs⟩
      · rintro ⟨row', offset, hk, rfl, hoffset, hs⟩
        exact ⟨offset, hoffset, hk, hs⟩
    rw [← Nat.or_exists_add_one, ← hfirst, ← hrest, hits]
    cases leftmost target row with
    | none => simp
    | some offset => simp

/-- The hits are in increasing order. -/
theorem hits_pairwise : ((hits target i rows).map Prod.fst).Pairwise (· < ·) := by
  induction rows generalizing i with
  | nil => exact .nil
  | cons row rows ih =>
    rw [hits]
    cases leftmost target row with
    | none => exact ih
    | some offset =>
      refine List.pairwise_cons.mpr ⟨fun k hk => ?_, ih⟩
      obtain ⟨⟨k, s⟩, hmem, rfl⟩ := List.mem_map.mp hk
      obtain ⟨j, -, -, rfl, -⟩ := mem_hits_iff.mp hmem
      simp only
      omega

/-- The hits are what is to be reported. -/
theorem reports_hits (hzero : ∀ row ∈ rows, 0 ∉ row) :
    (Found.add ⟨0, [], []⟩ (hits target 0 rows)).Reports target rows := by
  refine ⟨by simp [Found.add], ?_, fun k => ?_, ?_⟩
  · simpa [Found.add] using hits_pairwise
  · simp only [Found.add, List.nil_append, List.mem_map, Prod.exists, exists_and_right,
      exists_eq_right, mem_hits_iff, Nat.zero_add]
    constructor
    · rintro ⟨s, j, row, offset, rfl, hrow, hoffset, -⟩
      exact ⟨row, hrow, isSome_leftmost_iff.mp (by rw [hoffset]; rfl)⟩
    · rintro ⟨row, hrow, hinfix⟩
      obtain ⟨offset, hoffset⟩ := Option.isSome_iff_exists.mp (isSome_leftmost_iff.mpr hinfix)
      exact ⟨_, k, row, offset, rfl, hrow, hoffset, rfl⟩
  · simp only [Found.add, List.nil_append, List.forall₂_map_left_iff, List.forall₂_map_right_iff,
      List.forall₂_same]
    rintro ⟨k, s⟩ hmem
    obtain ⟨j, row, offset, rfl, hrow, hoffset, rfl⟩ := mem_hits_iff.mp hmem
    obtain ⟨-, hprefix, hleast⟩ := leftmost_eq_some_iff.mp hoffset
    have hsuffix : 0 ∉ row.drop offset := fun h =>
      hzero row (List.mem_of_getElem? hrow) (List.mem_of_mem_drop h)
    rw [Nat.zero_add]
    exact ⟨row, offset, hrow, cstr_append hsuffix [], hprefix, hleast⟩

/-- Rows of a string without a zero byte have none. -/
theorem zero_notMem_rows (hinput : 0 ∉ input) : ∀ row ∈ input.splitOn newline, 0 ∉ row := by
  induction input using rows_induction with
  | last s hs =>
    rw [List.splitOn_eq_singleton hs]
    intro row hrow
    rwa [List.mem_singleton.mp hrow]
  | cons line s hline ih =>
    simp only [List.mem_append, List.mem_cons, not_or] at hinput
    rw [splitOn_append_newline hline]
    intro row hrow
    rcases List.mem_cons.mp hrow with rfl | hrow
    · exact hinput.1
    · exact ih hinput.2.2 row hrow

/-- **End-to-end grep.** If no allocation fails that `malloc` and `realloc` can provide, the rows
are the input split at its newlines, and the result has exactly the rows that contain the target,
in increasing order, with the string from the first occurrence on for each of them, exactly if
the `int` variables can count the rows and measure each of them. -/
theorem find_reports_rows (hheap : heap.Ample) (htarget : 0 ∉ target) (room : List UInt8)
    {input : List UInt8} (hinput : 0 ∉ input) :
    (∃ in2d found, find heap (target ++ 0 :: room) ⟨input, false⟩ = some (0, in2d, found) ∧
      in2d.rowCount = (input.splitOn newline).length ∧
      in2d.buff2d.map cstr = (input.splitOn newline).map some ∧
      found.Reports target (input.splitOn newline)) ↔ ShortRows input := by
  constructor
  · rintro ⟨in2d, found, hfind, -⟩
    obtain ⟨⟨status, in2d'⟩, hmap, hfind⟩ := Option.bind_eq_some_iff.mp hfind
    refine mapStdinTo2d_eq_some hheap hinput hmap (Int.not_lt.mp fun hstatus => ?_)
    -- A negative status ends the program with another exit status.
    simp only [if_pos hstatus, Option.some_inj, Prod.mk.injEq] at hfind
    exact absurd hfind.1 (by decide)
  · intro hshort
    have hzero := zero_notMem_rows hinput
    refine ⟨⟨_, (input.splitOn newline).map (· ++ [0])⟩, _, ?_, rfl, ?_, reports_hits hzero⟩
    · rw [find, mapStdinTo2d_eq hheap hinput hshort]
      simp only [Option.bind_some, Int.lt_irrefl, if_false, populateSearchResult]
      rw [searchFrom_eq hheap htarget room hzero hshort.lengths hshort.count rfl rfl le_rfl]
      rfl
    · rw [List.map_map]
      exact List.map_congr_left fun row hrow => cstr_append (hzero row hrow) []

/-- An allocator that fails only for too many bytes and returns zeros. -/
def Heap.zeros : Heap := ⟨fun size => size ≤ ptrdiffMax, fun _ => 0⟩

/-- This allocator fails only for too many bytes. -/
theorem Heap.ample_zeros : Heap.zeros.Ample := fun _ => decide_eq_true_iff

/-- The target "b" in an input with three rows, the last of them empty. -/
theorem find_reports_rows_three :
    ∃ in2d found, find .zeros [98, 0] ⟨[97, 98, 10, 99, 10], false⟩ = some (0, in2d, found) ∧
      in2d.rowCount = 3 ∧ in2d.buff2d.map cstr = [some [97, 98], some [99], some []] ∧
      found.Reports [98] [[97, 98], [99], []] := by
  have htarget : (0 : UInt8) ∉ [98] := by decide
  have hinput : (0 : UInt8) ∉ [97, 98, 10, 99, 10] := by decide
  exact (find_reports_rows Heap.ample_zeros htarget [] hinput).mpr ⟨by decide, by decide⟩

/-- A single row that an `int` cannot measure is copied past the end of its block, or has none. -/
theorem find_eq_none (hheap : heap.Ample) (hinput : 0 ∉ input) (hlast : newline ∉ input)
    (hsize : input.length + 1 ≤ ptrdiffMax) (hlength : 2 ^ 31 ≤ input.length)
    (target : List UInt8) :
    find heap target ⟨input, false⟩ = none := by
  obtain ⟨rest, hread⟩ := mapStdinTo2d_of_length hheap hinput ⟨0, []⟩
  have hrow : pushRow heap ⟨0, []⟩ (input ++ 0 :: rest) = none := by
    cases hpush : pushRow heap ⟨0, []⟩ (input ++ 0 :: rest) with
    | none => rfl
    | some result => exact absurd (hheap.pushRow_eq_some hinput hpush).2.2.2 (by omega)
  rw [find, hread, if_pos hsize, pushRows_of_strsep (strsep_eq_last hinput hlast rest), hrow]
  rfl

/-- A row of four gigabytes is copied into a block of one byte. -/
theorem long_row_overruns :
    ∃ input : List UInt8, 0 ∉ input ∧ newline ∉ input ∧ input.length = 2 ^ 32 ∧
      find .zeros [98, 0] ⟨input, false⟩ = none := by
  -- The length stays a variable, so that nothing tries to compute the row.
  obtain ⟨n, hn⟩ : ∃ n, n = 2 ^ 32 := ⟨_, rfl⟩
  rw [← hn]
  have hinput : 0 ∉ List.replicate n (97 : UInt8) := by simp [List.mem_replicate]
  have hlast : newline ∉ List.replicate n (97 : UInt8) := by simp [List.mem_replicate, newline]
  refine ⟨List.replicate n 97, hinput, hlast, List.length_replicate, ?_⟩
  refine find_eq_none Heap.ample_zeros hinput hlast ?_ ?_ _
  · rw [List.length_replicate, ptrdiffMax]
    omega
  · rw [List.length_replicate]
    omega

end Hack.Grep
