import Mathlib.Data.List.Nodup

/-!
# Rows selected by a key

A table is a list of rows, and a query selects the rows with a given key. Nothing says that a key
has only one row. Rows and keys are arbitrary.
-/

namespace Hack.KeyedRows

variable {Row Key Id : Type*} [DecidableEq Key] {key : Row → Key} {rows : List Row} {k : Key}
  {row : Row} {edit : Row → Row}

/-- The rows with a key. -/
def matching (key : Row → Key) (rows : List Row) (k : Key) : List Row :=
  rows.filter fun row => key row = k

theorem mem_matching : row ∈ matching key rows k ↔ row ∈ rows ∧ key row = k := by
  simp [matching]

/-- A new row is selected with its own key only. -/
theorem matching_concat (key : Row → Key) (rows : List Row) (row : Row) (k : Key) :
    matching key (rows ++ [row]) k = matching key rows k ++ if key row = k then [row] else [] := by
  rw [matching, List.filter_append]
  congr 1
  split_ifs with h <;> simp [h]

/-- Rows that are edited and keep their keys are selected as before. -/
theorem matching_map (hkey : ∀ row, key (edit row) = key row) :
    matching key (rows.map edit) k = (matching key rows k).map edit := by
  simp only [matching, List.filter_map, Function.comp_def, hkey]

/-- Where identifiers are unique, an edit of one row is no edit of the rows with another key. -/
theorem map_matching_of_ne {ident : Row → Id} (hnodup : (rows.map ident).Nodup) (hrow : row ∈ rows)
    (hne : key row ≠ k) (hedit : ∀ other, ident other ≠ ident row → edit other = other) :
    (matching key rows k).map edit = matching key rows k := by
  have hid : ∀ other ∈ matching key rows k, edit other = id other := by
    intro other hmem
    obtain ⟨hother, hk⟩ := mem_matching.mp hmem
    refine hedit other fun heq => hne ?_
    rw [← List.inj_on_of_nodup_map hnodup hother hrow heq, hk]
  rw [List.map_congr_left hid, List.map_id]

/-- Where a key has at most one row, that is the row selected. -/
theorem matching_eq_singleton (hone : (matching key rows k).length ≤ 1) (hrow : row ∈ rows)
    (hk : key row = k) : matching key rows k = [row] := by
  have hmem : row ∈ matching key rows k := mem_matching.mpr ⟨hrow, hk⟩
  obtain ⟨other, hother⟩ :=
    List.length_eq_one_iff.mp (Nat.le_antisymm hone (List.length_pos_of_mem hmem))
  rw [hother, List.mem_singleton] at hmem
  rw [hother, hmem]

end Hack.KeyedRows
