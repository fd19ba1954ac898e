import Hack.CFile
import Hack.Strtok
import Mathlib.Algebra.Group.Nat.Defs

/-!
# Counting the lines and words of a file

This file embeds `wc`. A file is read into a buffer of its size, and each of the counts is made on
a copy of that size, by the functions of the C library that cut a string into tokens. The copies
have no zero behind them, so the memory that follows belongs to the string, and a zero in the file
ends it. The tokens of `strsep` are one more than the newlines, and those of `strtok` are cut at
blanks only.
-/

namespace Hack.Wc

open CFile CString Loop Strtok

/-- What `WC_get_buff_from_file_path` returns and stores. Without a buffer there are no bytes. -/
structure Buff where
  valread : ℤ
  byteLen : ℕ
  buff : List UInt8

/-- `WC_get_buff_from_file_path`. -/
def getBuffFromFilePath : Attempt → Buff
  | .notOpened => ⟨-1, 0, []⟩
  | .noEnd => ⟨0, 0, []⟩
  | .noSize => ⟨-2, 0, []⟩
  | .noFront => ⟨-3, 0, []⟩
  | .broken bufsize front => ⟨-4, 0, front ++ List.replicate (bufsize - front.length) 0⟩
  | .whole content => ⟨Int.bmod content.length (2 ^ 32), content.length, content⟩

/-- A turn of the loop over the lines. `strsep` returns `NULL` once its pointer is. -/
def lineTurn : Option (List UInt8) × ℕ → Option (Turn (Option (List UInt8) × ℕ) ℕ)
  | (none, newLines) => some (.leave newLines)
  | (some targetBuff, newLines) =>
    (strsep 10 targetBuff).map fun (_, targetBuff') => .next (targetBuff', newLines + 1)

/-- `WC_count_line_from_buff`, with the memory that follows the copy and a limit on the turns. -/
def countLineFromBuff (byteLen : ℕ) (buff following : List UInt8) (limit : ℕ) : Option (Option ℕ) :=
  run lineTurn limit (some (buff.take byteLen ++ following), 0)

/-- `WC_count_word_from_buff`, with the memory that follows the copy and a limit on the turns. -/
def countWordFromBuff (byteLen : ℕ) (buff following : List UInt8) (limit : ℕ) : Option (Option ℕ) :=
  run (tokenTurn [32] fun words _ => some (words + 1)) limit
    (⟨buff.take byteLen ++ following, 0⟩, 0)

/-- Both counts end and are right, whatever follows the copies: the newlines of the file, and the
maximal runs of bytes that are no white space. -/
def CountsRight (content : List UInt8) : Prop :=
  let b := getBuffFromFilePath (.whole content)
  ∀ following, (∃ limit, countLineFromBuff b.byteLen b.buff following limit =
      some (some (content.count 10))) ∧
    ∃ limit, countWordFromBuff b.byteLen b.buff following limit =
      some (some (runs isSpace content).length)

/-- The file has a zero, a single newline behind the first one, and before it blanks alone give as
many words as white space does in the whole file. -/
def ZeroBeforeLastLine (content : List UInt8) : Prop :=
  0 ∈ content ∧ (content.dropWhile (· ≠ 0)).count 10 = 1 ∧
    (runs (· = 32) (content.takeWhile (· ≠ 0))).length = (runs isSpace content).length

variable {s rest content : List UInt8} {n r : ℕ}

/-- The loop over the lines counts one more than the newlines before the zero. -/
theorem returns_lineTurn_iff (hs : 0 ∉ s) (rest : List UInt8) :
    Returns lineTurn (some (s ++ 0 :: rest), n) r ↔ n + (s.count 10 + 1) = r := by
  refine returns_iff_of_delims ?_ ?_ hs
  · intro line more n hzero hzero' hline
    rw [lineTurn, strsep_eq_cons hzero hzero' hline (by decide)]
    rfl
  · intro line n hzero hline
    have hnext : lineTurn (some (line ++ 0 :: rest), n) = some (.next (none, n + 1)) := by
      rw [lineTurn, strsep_eq_last hzero hline]
      rfl
    rw [returns_iff_of_next hnext, returns_iff_of_leave rfl]

/-- The loop over the words counts the runs between the blanks before the zero. -/
theorem returns_wordTurn_iff (hs : 0 ∉ s) (rest : List UInt8) :
    Returns (tokenTurn [32] fun words _ => some (words + 1)) (⟨s ++ 0 :: rest, 0⟩, 0) r ↔
      (runs (· = 32) s).length = r := by
  have hfold (ts : List (List UInt8)) (n : ℕ) :
      ts.foldlM (fun words _ => some (words + 1)) n = some (n + ts.length) := by
    induction ts generalizing n with
    | nil => rfl
    | cons t ts ih =>
      rw [List.foldlM_cons, Option.bind_eq_bind, Option.bind_some, ih, List.length_cons]
      congr 1
      omega
  rw [returns_tokenTurn_front_iff (by decide) (fun _ _ _ _ => rfl) hs, hfold, Option.some_inj,
    Nat.zero_add]
  simp only [List.mem_singleton]

/-- The copies are what the file is, with the memory behind them. -/
theorem countsRight_iff_returns (content : List UInt8) : CountsRight content ↔ ∀ following,
    Returns lineTurn (some (content ++ following), 0) (content.count 10) ∧
      Returns (tokenTurn [32] fun words _ => some (words + 1)) (⟨content ++ following, 0⟩, 0)
        (runs isSpace content).length := by
  show (∀ following, (∃ limit, countLineFromBuff content.length content following limit = _) ∧
      ∃ limit, countWordFromBuff content.length content following limit = _) ↔ _
  simp only [countLineFromBuff, countWordFromBuff, List.take_length]
  rfl

/-- The counts are right exactly if a zero stands before the last line and the words agree. -/
theorem countsRight_iff (content : List UInt8) :
    CountsRight content ↔ ZeroBeforeLastLine content := by
  rw [countsRight_iff_returns]
  by_cases hzero : 0 ∈ content
  · obtain ⟨s, t, rfl, hs⟩ := List.eq_append_cons_of_mem hzero
    have hsplit (b : UInt8) (hb : b ∈ s) : decide (b ≠ 0) = true :=
      decide_eq_true fun h => hs (h ▸ hb)
    have htake : (s ++ 0 :: t).takeWhile (· ≠ 0) = s := str_append_zero hs t
    have hdrop : (s ++ 0 :: t).dropWhile (· ≠ 0) = 0 :: t := by
      rw [List.dropWhile_append_of_pos hsplit]
      rfl
    have hlines : s.count 10 + 1 = (s ++ 0 :: t).count 10 ↔ (0 :: t).count 10 = 1 := by
      rw [List.count_append]
      omega
    have hall (following : List UInt8) : s ++ 0 :: t ++ following = s ++ 0 :: (t ++ following) := by
      rw [List.append_assoc, List.cons_append]
    simp only [hall, ZeroBeforeLastLine, htake, hdrop, ← hlines]
    constructor
    · intro h
      obtain ⟨hline, hword⟩ := h []
      refine ⟨hzero, ?_, (returns_wordTurn_iff hs _).mp hword⟩
      have hline := (returns_lineTurn_iff hs _).mp hline
      omega
    · rintro ⟨-, hline, hword⟩ following
      refine ⟨(returns_lineTurn_iff hs _).mpr ?_, (returns_wordTurn_iff hs _).mpr hword⟩
      omega
  · refine iff_of_false ?_ fun h => hzero h.1
    -- With a zero right behind the copy there is one line too many.
    intro h
    have hline := (returns_lineTurn_iff hzero []).mp (h [0]).1
    omega

example : ZeroBeforeLastLine [97, 0, 10] := ⟨by decide, by decide, by decide⟩

/-- A file of a single line: with a zero behind the copy two lines are counted. -/
theorem not_countsRight_hi : ¬CountsRight [104, 105, 10] := by
  rw [countsRight_iff_returns]
  intro h
  have hline := (returns_lineTurn_iff (s := [104, 105, 10]) (by decide) []).mp (h [0]).1
  exact absurd hline (by decide)

end Hack.Wc
