import Hack.Decides
import Mathlib.Data.List.Nodup
import Mathlib.Data.List.Pairwise
import Mathlib.Data.List.ProdSigma

/-!
# Sudoku boards

This file embeds `isValidSudoku` of `0xetc/0xcc/matrix/valid-sudoku`. One pair of nested loops
checks a row and the column of the same number together, and a box wherever the two counters are
at its first square. A character that was seen before ends the function at once.
-/

namespace Hack.Sudoku

/-- A board of nine rows with nine characters each. -/
abbrev Board := Vector (Vector UInt8 9) 9

/-- Why the loops are left before their end. -/
inductive Stop where
  | outside
  | invalid
  deriving DecidableEq

/-- The character of a square of the board. -/
def square (board : Board) (p : ℕ × ℕ) : Option UInt8 := board[p.1]?.bind fun row => row[p.2]?

/-- `board[i][j]`. -/
def read (board : Board) (i j : ℕ) : Except Stop UInt8 :=
  (square board (i, j)).elim (.error .outside) .ok

/-- A character is looked up among those before and added to them, if it is not `'.'`. -/
def see (seen : List UInt8) (c : UInt8) : Except Stop (List UInt8) :=
  if c = 46 then .ok seen
  else if c ∈ seen then .error .invalid
  else .ok (seen ++ [c])

/-- The loops over the box that begins at a square. -/
def checkSub (board : Board) (i j : ℕ) : Except Stop (List UInt8) :=
  (List.range' i 3).foldlM (fun sub si =>
    (List.range' j 3).foldlM (fun sub sj => read board si sj >>= see sub) sub) []

/-- The part of a turn that checks a box. -/
def checkBox (board : Board) (i j : ℕ) : Except Stop Unit :=
  if i % 3 = 0 ∧ j % 3 = 0 then checkSub board i j >>= fun _ => .ok () else .ok ()

/-- A turn of the inner loop, with the characters seen in the row and in the column. -/
def turn (board : Board) (i : ℕ) (seen : List UInt8 × List UInt8) (j : ℕ) :
    Except Stop (List UInt8 × List UInt8) := do
  checkBox board i j
  let xc ← read board i j
  let yc ← read board j i
  let x ← see seen.1 xc
  let y ← see seen.2 yc
  .ok (x, y)

/-- The nested loops. -/
def checkAll (board : Board) : Except Stop Unit :=
  (List.range 9).foldlM (fun _ i => (List.range 9).foldlM (turn board i) ([], []) >>=
    fun _ => .ok ()) ()

/-- `isValidSudoku`, without a result if a read is outside of the board. -/
def isValidSudoku (board : Board) : Option Bool :=
  match checkAll board with
  | .ok _ => some true
  | .error .invalid => some false
  | .error .outside => none

/-- Two squares are in one row, in one column or in one box. -/
def Meet (p q : ℕ × ℕ) : Prop :=
  p.1 = q.1 ∨ p.2 = q.2 ∨ p.1 / 3 = q.1 / 3 ∧ p.2 / 3 = q.2 / 3

/-- Two squares have no character other than `'.'` in common. -/
def Apart (board : Board) (p q : ℕ × ℕ) : Prop :=
  ∀ c, square board p = some c → square board q = some c → c = 46

/-- No character other than `'.'` is twice in a row, a column or a box. -/
def Valid (board : Board) : Prop := ∀ p q, p ≠ q → Meet p q → Apart board p q

/-- The characters other than `'.'` of some squares. -/
def marks (board : Board) (squares : List (ℕ × ℕ)) : List UInt8 :=
  (squares.filterMap (square board)).filter (· ≠ 46)

variable {board : Board} {squares done : List (ℕ × ℕ)} {i j : ℕ} {c : UInt8} {p : ℕ × ℕ}
  {js : List ℕ}

/-- A board has nine rows and nine columns. -/
theorem exists_square_iff : (∃ c, square board (i, j) = some c) ↔ i < 9 ∧ j < 9 := by
  by_cases hi : i < 9
  · by_cases hj : j < 9
    · simp [square, hi, hj]
    · simp [square, hi, hj]
  · simp [square, hi]

/-- A square of the board is read. -/
theorem read_eq (hc : square board (i, j) = some c) : read board i j = .ok c := by
  rw [read, hc]
  rfl

theorem marks_append (squares done : List (ℕ × ℕ)) :
    marks board (done ++ squares) = marks board done ++ marks board squares := by
  rw [marks, List.filterMap_append, List.filter_append, marks, marks]

/-- The next square of the board is seen without an end exactly if its character is new. -/
theorem decides_see (hc : square board p = some c) (hdone : (marks board done).Nodup) :
    Decides .invalid (see (marks board done) c) (marks board (done ++ [p]))
      (marks board (done ++ [p])).Nodup := by
  rw [marks_append]
  have hmarks : marks board [p] = if c = 46 then [] else [c] := by
    rw [marks, List.filterMap_cons_some hc, List.filterMap_nil]
    by_cases hdot : c = 46
    · simp [hdot]
    · simp [hdot]
  rw [hmarks, see]
  split_ifs with hdot hseen
  · rw [List.append_nil]
    exact (Decides.of_ok rfl).congr (iff_of_true trivial hdone)
  · refine ⟨fun hnodup => ?_, fun _ => rfl⟩
    exact absurd hseen (List.disjoint_singleton.mp (List.disjoint_of_nodup_append hnodup))
  · refine (Decides.of_ok rfl).congr (iff_of_true trivial ?_)
    exact hdone.append (List.nodup_singleton c) (List.disjoint_singleton.mpr hseen)

/-- Fewer squares repeat no more characters. -/
theorem nodup_marks_of_append (h : (marks board (done ++ squares)).Nodup) :
    (marks board done).Nodup := by
  rw [marks_append] at h
  exact h.of_append_left

/-- The loop over some squares of a row checks them. -/
theorem decides_row (hrow : i < 9) (hjs : ∀ j ∈ js, j < 9) (hdone : (marks board done).Nodup) :
    Decides .invalid (js.foldlM (fun sub j => read board i j >>= see sub) (marks board done))
      (marks board (done ++ js.map (Prod.mk i)))
      (marks board (done ++ js.map (Prod.mk i))).Nodup := by
  have hback : ∀ js rest : List ℕ, (marks board (done ++ (js ++ rest).map (Prod.mk i))).Nodup →
      (marks board (done ++ js.map (Prod.mk i))).Nodup := by
    intro js rest hnodup
    rw [List.map_append, ← List.append_assoc] at hnodup
    exact nodup_marks_of_append hnodup
  rw [← List.append_nil done] at hdone
  apply Decides.foldlM (fun js => marks board (done ++ js.map (Prod.mk i)))
    (fun js => (marks board (done ++ js.map (Prod.mk i))).Nodup) _ hdone hback
  · intro js hpass j hj
    obtain ⟨c, hc⟩ : ∃ c, square board (i, j) = some c :=
      exists_square_iff.mpr ⟨hrow, hjs j hj⟩
    rw [read_eq hc, List.map_append, ← List.append_assoc]
    exact decides_see hc hpass
  · rw [List.map_nil, List.append_nil]

/-- The squares of the box that begins at a square. -/
def sub (i j : ℕ) : List (ℕ × ℕ) := List.range' i 3 ×ˢ List.range' j 3

/-- The loops over a box check it. -/
theorem decides_checkSub (hrow : i + 3 ≤ 9) (hcolumn : j + 3 ≤ 9) :
    Decides .invalid (checkSub board i j) (marks board (sub i j))
      (marks board (sub i j)).Nodup := by
  have happend : ∀ is rest : List ℕ, (is ++ rest) ×ˢ List.range' j 3 =
      is ×ˢ List.range' j 3 ++ rest ×ˢ List.range' j 3 := fun is rest => List.flatMap_append
  apply Decides.foldlM (fun is => marks board (is ×ˢ List.range' j 3))
    (fun is => (marks board (is ×ˢ List.range' j 3)).Nodup) rfl List.nodup_nil
  · intro is rest hnodup
    rw [happend] at hnodup
    exact nodup_marks_of_append hnodup
  · intro is hpass si hsi
    rw [happend, List.product_cons, List.nil_product, List.append_nil]
    rw [List.mem_range'_1] at hsi
    apply decides_row (by omega) _ hpass
    intro sj hsj
    rw [List.mem_range'_1] at hsj
    omega

/-- What the turn for two counters checks apart from the row and the column. -/
def BoxPasses (board : Board) (i j : ℕ) : Prop :=
  i % 3 = 0 ∧ j % 3 = 0 → (marks board (sub i j)).Nodup

theorem decides_checkBox (hrow : i < 9) (hcolumn : j < 9) :
    Decides .invalid (checkBox board i j) () (BoxPasses board i j) := by
  by_cases hfirst : i % 3 = 0 ∧ j % 3 = 0
  · have hsub : Decides .invalid (checkSub board i j) (marks board (sub i j))
        (marks board (sub i j)).Nodup := decides_checkSub (by omega) (by omega)
    rw [checkBox, if_pos hfirst]
    apply (hsub.map fun _ => ()).congr
    rw [BoxPasses, imp_iff_right hfirst]
  · rw [checkBox, if_neg hfirst]
    exact (Decides.of_ok rfl).congr (iff_of_true trivial fun h => absurd h hfirst)

/-- The squares of a row and of a column with some counters. -/
def row (i : ℕ) (js : List ℕ) : List (ℕ × ℕ) := js.map fun j => (i, j)

@[inherit_doc row]
def column (i : ℕ) (js : List ℕ) : List (ℕ × ℕ) := js.map fun j => (j, i)

/-- What some turns of the inner loop check. -/
structure RowPasses (board : Board) (i : ℕ) (js : List ℕ) : Prop where
  box : ∀ j ∈ js, BoxPasses board i j
  row : (marks board (row i js)).Nodup
  column : (marks board (column i js)).Nodup

theorem RowPasses.of_append {rest : List ℕ} (h : RowPasses board i (js ++ rest)) :
    RowPasses board i js where
  box j hj := h.box j (List.mem_append_left rest hj)
  row := by
    have hrow := h.row
    rw [Sudoku.row, List.map_append] at hrow
    exact nodup_marks_of_append hrow
  column := by
    have hcolumn := h.column
    rw [Sudoku.column, List.map_append] at hcolumn
    exact nodup_marks_of_append hcolumn

/-- A turn of the inner loop. -/
theorem decides_turn (hi : i < 9) (hj : j < 9) (hpass : RowPasses board i js) :
    Decides .invalid (turn board i (marks board (row i js), marks board (column i js)) j)
      (marks board (row i (js ++ [j])), marks board (column i (js ++ [j])))
      (RowPasses board i (js ++ [j])) := by
  obtain ⟨xc, hxc⟩ : ∃ c, square board (i, j) = some c := exists_square_iff.mpr ⟨hi, hj⟩
  obtain ⟨yc, hyc⟩ : ∃ c, square board (j, i) = some c := exists_square_iff.mpr ⟨hj, hi⟩
  have hx := decides_see hxc hpass.row
  have hy := decides_see hyc hpass.column
  have hrow : row i (js ++ [j]) = row i js ++ [(i, j)] := List.map_append
  have hcolumn : column i (js ++ [j]) = column i js ++ [(j, i)] := List.map_append
  rw [← hrow] at hx
  rw [← hcolumn] at hy
  rw [turn, read_eq hxc, read_eq hyc]
  apply ((decides_checkBox hi hj).bind fun _ => hx.bind fun _ => hy.map (Prod.mk _)).congr
  constructor
  · rintro ⟨hbox, hrow', hcolumn'⟩
    refine ⟨?_, hrow', hcolumn'⟩
    rw [List.forall_mem_append, List.forall_mem_singleton]
    exact ⟨hpass.box, hbox⟩
  · intro h
    exact ⟨h.box j (List.mem_append_right js List.mem_cons_self), h.row, h.column⟩

/-- The inner loop checks a row, a column and the boxes that begin in the row. -/
theorem decides_turns (hi : i < 9) :
    Decides .invalid ((List.range 9).foldlM (turn board i) ([], []))
      (marks board (row i (List.range 9)), marks board (column i (List.range 9)))
      (RowPasses board i (List.range 9)) := by
  apply Decides.foldlM (fun js => (marks board (row i js), marks board (column i js)))
    (RowPasses board i) rfl
  · exact ⟨nofun, List.nodup_nil, List.nodup_nil⟩
  · intro js rest
    exact RowPasses.of_append
  · intro js hpass j hj
    exact decides_turn hi (List.mem_range.mp hj) hpass

/-- The loops check all rows. -/
theorem decides_checkAll : Decides .invalid (checkAll board) ()
      (∀ i ∈ List.range 9, RowPasses board i (List.range 9)) := by
  apply Decides.foldlM (fun _ => ()) (fun is => ∀ i ∈ is, RowPasses board i (List.range 9)) rfl
  · nofun
  · intro is rest hpass i hi
    exact hpass i (List.mem_append_left rest hi)
  · intro is hpass i hi
    apply ((decides_turns (List.mem_range.mp hi)).map fun _ => ()).congr
    rw [List.forall_mem_append, List.forall_mem_singleton]
    exact (and_iff_right hpass).symm

instance : Std.Symm (Apart board) where
  symm _ _ h c hp hq := h c hq hp

/-- Some squares have different characters if no two of them have the same one. -/
theorem nodup_marks_iff (hnodup : squares.Nodup) :
    (marks board squares).Nodup ↔ ∀ p ∈ squares, ∀ q ∈ squares, p ≠ q → Apart board p q := by
  have hpairs : (marks board squares).Nodup ↔ squares.Pairwise (Apart board) := by
    rw [marks, List.nodup_iff_pairwise_ne, List.pairwise_filter, List.pairwise_filterMap]
    apply List.Pairwise.iff
    intro p q
    simp only [decide_eq_true_eq]
    constructor
    · intro h c hp hq
      by_contra hdot
      exact h c hp c hq hdot hdot rfl
    · rintro h c hp c' hq hdot - rfl
      exact hdot (h c hp hq)
  rw [hpairs]
  constructor
  · intro h p hp q hq
    exact h.forall hp hq
  · exact hnodup.pairwise_of_forall_ne

theorem mem_row : p ∈ row i js ↔ p.1 = i ∧ p.2 ∈ js := by
  simp [row, Prod.ext_iff, and_comm, eq_comm]

theorem mem_column : p ∈ column i js ↔ p.2 = i ∧ p.1 ∈ js := by
  simp [column, Prod.ext_iff, and_comm, eq_comm]

theorem mem_sub : p ∈ sub i j ↔ (i ≤ p.1 ∧ p.1 < i + 3) ∧ j ≤ p.2 ∧ p.2 < j + 3 := by
  rw [sub, List.mem_product, List.mem_range'_1, List.mem_range'_1]

theorem nodup_row (hjs : js.Nodup) : (row i js).Nodup :=
  hjs.map fun _ _ h => (Prod.mk.inj h).2

theorem nodup_column (hjs : js.Nodup) : (column i js).Nodup :=
  hjs.map fun _ _ h => (Prod.mk.inj h).1

theorem nodup_sub : (sub i j).Nodup := (List.nodup_range' 1).product (List.nodup_range' 1)

/-- What the loops check is the same as that the board is valid. -/
theorem forall_rowPasses_iff :
    (∀ i ∈ List.range 9, RowPasses board i (List.range 9)) ↔ Valid board := by
  constructor
  · intro hpass p q hne hmeet c hp hq
    obtain ⟨hp1, hp2⟩ := exists_square_iff.mp ⟨c, hp⟩
    obtain ⟨hq1, hq2⟩ := exists_square_iff.mp ⟨c, hq⟩
    simp only [List.mem_range] at hpass
    rcases hmeet with hrow | hcolumn | hbox
    · have hnodup := (nodup_marks_iff (nodup_row List.nodup_range)).mp (hpass p.1 hp1).row
      exact hnodup p (mem_row.mpr ⟨rfl, List.mem_range.mpr hp2⟩) q
        (mem_row.mpr ⟨hrow.symm, List.mem_range.mpr hq2⟩) hne c hp hq
    · have hnodup := (nodup_marks_iff (nodup_column List.nodup_range)).mp (hpass p.2 hp2).column
      exact hnodup p (mem_column.mpr ⟨rfl, List.mem_range.mpr hp1⟩) q
        (mem_column.mpr ⟨hcolumn.symm, List.mem_range.mpr hq1⟩) hne c hp hq
    · have hfirst := (hpass (3 * (p.1 / 3)) (by omega)).box (3 * (p.2 / 3))
        (List.mem_range.mpr (by omega)) (by omega)
      exact (nodup_marks_iff nodup_sub).mp hfirst p (mem_sub.mpr (by omega)) q
        (mem_sub.mpr (by omega)) hne c hp hq
  · intro hvalid i _
    refine ⟨?_, ?_, ?_⟩
    · intro j _ hfirst
      rw [nodup_marks_iff nodup_sub]
      intro p hp q hq hne
      rw [mem_sub] at hp hq
      exact hvalid p q hne (.inr (.inr (by omega)))
    · rw [nodup_marks_iff (nodup_row List.nodup_range)]
      intro p hp q hq hne
      exact hvalid p q hne (.inl ((mem_row.mp hp).1.trans (mem_row.mp hq).1.symm))
    · rw [nodup_marks_iff (nodup_column List.nodup_range)]
      intro p hp q hq hne
      exact hvalid p q hne (.inr (.inl ((mem_column.mp hp).1.trans (mem_column.mp hq).1.symm)))

/-- The function tells whether a board is valid. -/
theorem exists_isValidSudoku_iff (board : Board) :
    ∃ result, isValidSudoku board = some result ∧ (result = true ↔ Valid board) := by
  have hdecides : Decides .invalid (checkAll board) () (Valid board) :=
    decides_checkAll.congr forall_rowPasses_iff
  by_cases hvalid : Valid board
  · refine ⟨true, ?_, iff_of_true rfl hvalid⟩
    rw [isValidSudoku, hdecides.ok hvalid]
  · refine ⟨false, ?_, iff_of_false Bool.false_ne_true hvalid⟩
    rw [isValidSudoku, hdecides.error hvalid]

end Hack.Sudoku
