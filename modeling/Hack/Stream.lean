import Hack.CFile
import Hack.Strtok
import Mathlib.Data.List.GetD

/-!
# Printing a file row by row

This file embeds `StreamTo2dInterface` and `Print2dBufferFromStream` of `stream/interface.c`. A
file is read into an array with a newline and a zero behind it. One loop counts the newlines of
the string in the array to allocate a pointer for each row, and another one cuts the string into
rows and stores each in its place. The rows are fewer than the newlines unless a zero of the file
ends the string before its last row.
-/

namespace Hack.Stream

open CFile CString Loop Strtok

/-- `MAX_STREAM_LEN`. -/
def maxStreamLen : ℕ := 1024 * 1024

/-- The array with bytes at its front. -/
def source (text : List UInt8) : Option (List UInt8) :=
  if text.length ≤ maxStreamLen then some (text ++ List.replicate (maxStreamLen - text.length) 0)
  else none

/-- `StreamTo2dInterface` up to the call at its end: the array that is handed over, unless the
program exits before. -/
def streamTo2dInterface : Attempt → Option (Option (List UInt8))
  | .notOpened | .noEnd => (source []).map some
  | .noSize | .noFront => some none
  | .broken _ front => (source front).map some
  | .whole content => (source (content ++ [10, 0])).map some

/-- A turn of the loop that counts the newlines. -/
def rowNumTurn : Option (List UInt8) × ℕ → Option (Turn (Option (List UInt8) × ℕ) ℕ)
  | (none, rowNum) => some (.leave rowNum)
  | (some sTmp, rowNum) =>
    (strchr sTmp 10).map fun sTmp' =>
      match sTmp' with
      | none => .next (none, rowNum)
      | some sTmp' => .next (some sTmp', rowNum + 1)

/-- The array of row pointers, with the number of rows in it. -/
structure Rows where
  tdBuff : List (Option (List UInt8))
  row : ℕ

/-- What is done with a token: it is copied into a new row. -/
def storeRow (rows : Rows) (ptk : List UInt8) : Option Rows := do
  let lineLen ← strlen ptk
  let line ← strcpy (List.replicate (lineLen + 1) 0) ptk
  if rows.row < rows.tdBuff.length then
    some ⟨rows.tdBuff.set rows.row (some line), rows.row + 1⟩
  else none

/-- The loop that prints the rows. It follows pointers that were stored. -/
def printRows (rows : Rows) : Option (List (List UInt8)) :=
  (List.range rows.row).mapM fun i => (rows.tdBuff[i]?).join.bind cstr

/-- `Print2dBufferFromStream`, with a limit on the turns of its loops. -/
def print2dBufferFromStream (source : List UInt8) (limit : ℕ) :
    Option (Option (List (List UInt8))) :=
  (run rowNumTurn limit (some source, 0)).bind fun rowNum =>
    match rowNum with
    | none => some none
    | some rowNum =>
      (run (tokenTurn [10] storeRow) limit (⟨source, 0⟩, ⟨List.replicate rowNum none, 0⟩)).map
        fun rows => rows.bind printRows

/-- The file is printed: every row is stored in the array, and no pointer is printed that was not
stored. -/
def PrintsRows (content : List UInt8) : Prop :=
  ∃ source, streamTo2dInterface (.whole content) = some (some source) ∧
    ∃ limit lines, print2dBufferFromStream source limit = some (some lines)

variable {s rest content : List UInt8} {n r : ℕ}

/-- The first loop counts the newlines before the zero. -/
theorem returns_rowNumTurn_iff (hs : 0 ∉ s) (rest : List UInt8) :
    Returns rowNumTurn (some (s ++ 0 :: rest), n) r ↔ n + s.count 10 = r := by
  rw [← Nat.add_zero (s.count 10)]
  refine returns_iff_of_delims ?_ ?_ hs
  · intro line more n hzero hzero' hline
    rw [rowNumTurn, strchr_eq_some hzero hzero' hline (by decide)]
    rfl
  · intro line n hzero hline
    have hnext : rowNumTurn (some (line ++ 0 :: rest), n) = some (.next (none, n)) := by
      rw [rowNumTurn, strchr_eq_none hzero hline]
      rfl
    rw [returns_iff_of_next hnext, returns_iff_of_leave rfl, Nat.add_zero]

/-- Rows that are stored at the front of an array. -/
def stored (lines : List (List UInt8)) (room : ℕ) : Rows :=
  ⟨lines.map (fun line => some (line ++ [0])) ++ List.replicate room none, lines.length⟩

/-- A row is stored if there is room for it. -/
def addRow (rows : Rows) (line : List UInt8) : Option Rows :=
  if rows.row < rows.tdBuff.length then
    some ⟨rows.tdBuff.set rows.row (some (line ++ [0])), rows.row + 1⟩
  else none

theorem storeRow_eq (rows : Rows) (line more : List UInt8) (hline : 0 ∉ line) :
    storeRow rows (line ++ 0 :: more) = addRow rows line := by
  have hcopy : strcpy (List.replicate (line.length + 1) 0) (line ++ 0 :: more) =
      some (line ++ [0]) := by
    rw [strcpy_eq hline (by rw [List.length_replicate]; exact Nat.lt_succ_self _),
      List.drop_replicate, Nat.sub_self]
    rfl
  simp only [storeRow, strlen_append hline, hcopy, Option.bind_eq_bind, Option.bind_some, addRow]

theorem addRow_stored (lines : List (List UInt8)) (room : ℕ) (line : List UInt8) :
    addRow (stored lines (room + 1)) line = some (stored (lines ++ [line]) room) := by
  have hroom : (stored lines (room + 1)).row < (stored lines (room + 1)).tdBuff.length := by
    simp [stored]
  rw [addRow, if_pos hroom]
  simp [stored, List.set_append_right, List.replicate_succ]

/-- All rows are stored exactly if there is room for them. -/
theorem foldlM_addRow (lines done : List (List UInt8)) (room : ℕ) :
    lines.foldlM addRow (stored done room) =
      if lines.length ≤ room then some (stored (done ++ lines) (room - lines.length))
      else none := by
  induction lines generalizing done room with
  | nil => simp
  | cons line lines ih =>
    rw [List.foldlM_cons]
    cases room with
    | zero =>
      have hfull : addRow (stored done 0) line = none := by
        rw [addRow, if_neg (by simp [stored])]
      rw [hfull, if_neg (by simp)]
      rfl
    | succ room =>
      rw [addRow_stored, Option.bind_eq_bind, Option.bind_some, ih, List.length_cons,
        Nat.add_sub_add_right, List.append_assoc]
      simp only [Nat.add_le_add_iff_right]
      rfl

/-- Stored rows are printed as they are. -/
theorem printRows_stored {lines : List (List UInt8)} (hlines : ∀ l ∈ lines, 0 ∉ l) (room : ℕ) :
    printRows (stored lines room) = some lines := by
  have hmapM (f : ℕ → Option (List UInt8)) (g : ℕ → List UInt8) (l : List ℕ)
      (hfg : ∀ i ∈ l, f i = some (g i)) : l.mapM f = some (l.map g) := by
    induction l with
    | nil => rfl
    | cons i l ih =>
      rw [List.mapM_cons, hfg i List.mem_cons_self,
        ih fun j hj => hfg j (List.mem_cons_of_mem i hj)]
      rfl
  rw [printRows, hmapM _ fun i => lines.getD i []]
  · congr 1
    apply List.ext_getElem
    · rw [List.length_map, List.length_range, stored]
    · intro i _ hi
      rw [List.getElem_map, List.getElem_range, List.getD_eq_getElem lines [] hi]
  · intro i hi
    have hlt : i < lines.length := List.mem_range.mp hi
    have hrow : (stored lines room).tdBuff[i]? = some (some (lines[i] ++ [0])) := by
      simp [stored, List.getElem?_append_left, hlt]
    rw [hrow, List.getD_eq_getElem lines [] hlt]
    exact cstr_append (hlines _ (List.getElem_mem hlt)) []

/-- A string in an array is printed exactly if it has at most as many rows as newlines. -/
theorem exists_print_iff (hs : 0 ∉ s) (rest : List UInt8) :
    (∃ limit lines, print2dBufferFromStream (s ++ 0 :: rest) limit = some (some lines)) ↔
      [] ∈ s.splitOn 10 := by
  have hrows (room : ℕ) (rows : Rows) : Returns (tokenTurn [10] storeRow)
        (⟨s ++ 0 :: rest, 0⟩, ⟨List.replicate room none, 0⟩) rows ↔
      (runs (· ∈ [10]) s).foldlM addRow (stored [] room) = some rows :=
    returns_tokenTurn_front_iff (by decide) storeRow_eq hs rest
  have hcount : (runs (· ∈ [10]) s).length ≤ s.count 10 ↔ [] ∈ s.splitOn 10 := by
    have hsep : (fun b : UInt8 => decide (b ∈ [10])) = (· == 10) := by
      funext b
      rw [Bool.eq_iff_iff]
      simp
    rw [hsep]
    exact length_runs_le_iff (· == 10) s
  rw [← hcount]
  constructor
  · rintro ⟨limit, lines, hprint⟩
    obtain ⟨rowNum, hcountRun, hprint⟩ := Option.bind_eq_some_iff.mp hprint
    cases rowNum with
    | none => cases hprint
    | some rowNum =>
      obtain ⟨rows, hrun, hprint⟩ := Option.map_eq_some_iff.mp hprint
      cases rows with
      | none => cases hprint
      | some rows =>
        have hnum := (returns_rowNumTurn_iff hs rest).mp ⟨limit, hcountRun⟩
        have hfold := (hrows rowNum rows).mp ⟨limit, hrun⟩
        rw [foldlM_addRow] at hfold
        split_ifs at hfold with hle
        omega
  · intro hle
    obtain ⟨limit, hcountRun⟩ := (returns_rowNumTurn_iff (n := 0) hs rest).mpr rfl
    have hfold := foldlM_addRow (runs (· ∈ [10]) s) [] (0 + s.count 10)
    rw [if_pos (by omega), List.nil_append] at hfold
    obtain ⟨limit', hrun⟩ := (hrows _ _).mpr hfold
    have hzero : ∀ line ∈ runs (· ∈ [10]) s, 0 ∉ line :=
      fun line hline hmem => hs (mem_of_mem_runs hline hmem)
    refine ⟨max limit limit', runs (· ∈ [10]) s, ?_⟩
    rw [print2dBufferFromStream, run_mono (le_max_left _ _) hcountRun, Option.bind_some]
    show (run _ _ _).map _ = _
    rw [run_mono (le_max_right _ _) hrun, Option.map_some, Option.bind_some, printRows_stored hzero]

/-- A file that fits stands in the array with a newline, a zero and more of them behind it. -/
theorem printsRows_iff_exists_print (hlength : content.length < maxStreamLen - 1) :
    ∃ room, PrintsRows content ↔ ∃ limit lines,
      print2dBufferFromStream (content ++ 10 :: 0 :: room) limit = some (some lines) := by
  have hfits : (content ++ [10, 0]).length ≤ maxStreamLen := by
    rw [List.length_append, List.length_cons, List.length_singleton]
    omega
  refine ⟨List.replicate (maxStreamLen - (content ++ [10, 0]).length) 0, ?_⟩
  simp only [PrintsRows, streamTo2dInterface, source, if_pos hfits, Option.map_some,
    Option.some_inj, exists_eq_left', List.append_assoc, List.cons_append, List.nil_append]

/-- A file that fits is printed exactly if it has no zero, or the part before its first zero is
empty, begins or ends with a newline or has two of them in a row. -/
theorem printsRows_iff (hlength : content.length < maxStreamLen - 1) :
    PrintsRows content ↔ 0 ∉ content ∨ [] ∈ (content.takeWhile (· ≠ 0)).splitOn 10 := by
  obtain ⟨room, hprints⟩ := printsRows_iff_exists_print hlength
  rw [hprints]
  by_cases hzero : 0 ∈ content
  · obtain ⟨s, t, rfl, hs⟩ := List.eq_append_cons_of_mem hzero
    have hstr : (s ++ 0 :: t).takeWhile (· ≠ 0) = s := str_append_zero hs t
    rw [hstr, or_iff_right (not_not_intro hzero), List.append_assoc, List.cons_append]
    exact exists_print_iff hs _
  · -- The newline behind the file ends its last row, so there is one for each of them.
    have hs : 0 ∉ content ++ [10] := by
      rw [List.mem_append, not_or]
      exact ⟨hzero, by decide⟩
    have hlast : [] ∈ (content ++ [10]).splitOn 10 := by
      show [] ∈ (content ++ [10]).splitOnP (· == 10)
      rw [List.splitOnP_append_cons content [] (by decide), List.splitOnP_nil]
      exact List.mem_append_right _ (List.mem_singleton_self _)
    have hprint := exists_print_iff hs room
    rw [List.append_assoc, List.singleton_append] at hprint
    exact iff_of_true (hprint.mpr hlast) (.inl hzero)

/-- A line, an empty one and another line before a zero. -/
theorem printsRows_empty_line : PrintsRows [97, 10, 10, 98, 0, 99] :=
  (printsRows_iff (by decide)).mpr (.inr (by decide))

/-- A single line before a zero: there is no newline, and so no room for the row. -/
theorem not_printsRows_line : ¬PrintsRows [97, 0] := by
  have hlength : ([97, 0] : List UInt8).length < maxStreamLen - 1 := by decide
  obtain ⟨room, hprints⟩ := printsRows_iff_exists_print hlength
  rw [hprints]
  intro h
  have hrow := (exists_print_iff (s := [97]) (by decide) (10 :: 0 :: room)).mp h
  exact absurd hrow (by decide)

end Hack.Stream
