import Hack.CVector.Ints
import Hack.Grep.Input
import Mathlib.Data.List.InsertIdx
import Mathlib.Data.List.Nodup

/-!
# The vector of strings

This file embeds `vector/string.c`, of which `grep/grep.c` has a copy. The array holds pointers to
blocks of their own, one for each string. An erase frees the block of the erased string, shifts
the pointers, and copies the last string to a new block. The length of a string becomes an `int`
before it becomes a size, so a string of four gigabytes gets a block that is too small for it.
-/

namespace Hack.CVector

open BlockHeap CString
open Grep (lineSize lineSize_eq)

/-- A string. -/
abbrev Text := { bytes : List UInt8 // 0 ∉ bytes }

/-- The bytes of a string with their closing zero. -/
def Text.cells (text : Text) : List UInt8 := text.1 ++ [0]

/-- The memory: the arrays of pointers, and the blocks of the strings. -/
structure StringMem where
  arrays : BlockHeap ℕ
  strings : BlockHeap UInt8

/-- What fresh memory holds. -/
structure StringJunk where
  arrays : ℕ → ℕ → ℕ
  strings : ℕ → ℕ → UInt8

/-- `memset` of the first cells to zero. -/
def clear (size : ℕ) (cells : List UInt8) : Option (List UInt8) :=
  if size ≤ cells.length then some (List.replicate size 0 ++ cells.drop size) else none

/-- A new block of the given size that is cleared. -/
def newBlock (junk : ℕ → ℕ → UInt8) (size : ℕ) (h : BlockHeap UInt8) :
    Option (ℕ × BlockHeap UInt8) :=
  (h.malloc junk 1 size).bind fun (line, h) =>
    (h.edit line (clear size)).map fun h => (line, h)

/-- A new block of the given size that is cleared and gets a copy of a string. -/
def newString (junk : ℕ → ℕ → UInt8) (size : ℕ) (src : List UInt8) (h : BlockHeap UInt8) :
    Option (ℕ × BlockHeap UInt8) :=
  (newBlock junk size h).bind fun (line, h) =>
    (h.edit line fun cells => strcpy cells src).map fun h => (line, h)

/-- `VECTOR_PushBackString`. -/
def pushBackString (junk : StringJunk) (rowc vec : ℕ) (newEl : List UInt8) (m : StringMem) :
    Option (StringMem × ℕ × ℤ) :=
  (grow junk.arrays 8 rowc vec m.arrays).bind fun (vecTmp, arrays) =>
    (strlen newEl).bind fun newLineLen =>
      (newString junk.strings (lineSize newLineLen) newEl m.strings).bind fun (line, strings) =>
        (arrays.store vecTmp rowc line).map fun arrays => (⟨arrays, strings⟩, vecTmp, 0)

/-- The size that is computed for the last string: its length and one become an `int` and then a
`size_t`. -/
def lastSize (length : ℕ) : ℕ := (((length + 1 : ℕ) : ℤ).bmod (2 ^ 32) % 2 ^ 64).toNat

/-- The last string is copied to a new block, which the cell before its own points to. -/
def moveLast (junk : StringJunk) (vec : ℕ) (m : StringMem) (i : ℕ) : Option StringMem :=
  (m.arrays.load vec i).bind fun row =>
    (m.strings.block row).bind fun line =>
      (strlen line).bind fun length =>
        (newString junk.strings (lastSize length) line m.strings).bind fun (newLast, strings) =>
          (strings.free row).bind fun strings =>
            (m.arrays.store vec (i - 1) newLast).map fun arrays => ⟨arrays, strings⟩

/-- The loop of `VECTOR_EraseString`. -/
def eraseStringAt (junk : StringJunk) (rowc vec : ℕ) (index : ℤ) (m : StringMem) (i : ℕ) :
    Option StringMem :=
  if i < index then some m
  else if i = index then
    (m.arrays.load vec i).bind fun row =>
      (m.strings.free row).map fun strings => { m with strings }
  else if i ≠ rowc - 1 then (shift vec m.arrays i).map fun arrays => { m with arrays }
  else moveLast junk vec m i

/-- `VECTOR_EraseString`. -/
def eraseString (junk : StringJunk) (rowc vec : ℕ) (index : ℤ) (m : StringMem) :
    Option (StringMem × ℕ × ℤ) :=
  checked rowc vec index m <|
    ((List.range rowc).foldlM (eraseStringAt junk rowc vec index) m).bind fun m =>
      (shrink junk.arrays 8 (rowc - 1) vec m.arrays).map fun (arrays, vec, code) =>
        ({ m with arrays }, vec, code)

/-- The vector of strings. -/
def strings (junk : StringJunk) : Functions StringMem Text :=
  ⟨fun rowc vec text => pushBackString junk rowc vec text.cells, eraseString junk⟩

/-- The pointers of an array are different ones, to live blocks that hold the strings. -/
structure Points (h : BlockHeap UInt8) (rows : List ℕ) (l : List Text) : Prop where
  nodup : rows.Nodup
  block_eq : rows.map h.block = l.map fun text => some text.cells

/-- A vector of strings holds a list: the array has a pointer to each string, and the caller its
length. -/
structure HoldsStrings (s : Held StringMem) (l : List Text) : Prop where
  count_eq : s.count = l.length
  count_lt : l.length < 2 ^ 31
  rows : ∃ rows, Stored s.mem.arrays s.vec rows ∧ Points s.mem.strings rows l

/-- The `int` variables of a call hold what they are computed for: the count and the length of the
string that is copied. -/
def FitsString (l : List Text) : Op Text → Prop
  | .push text => l.length + 1 < 2 ^ 31 ∧ text.1.length < 2 ^ 31
  | .erase index => ∀ i : ℕ, index = i → i + 1 < l.length →
    ∀ last ∈ l.getLast?, last.1.length + 1 < 2 ^ 31

/-! ### Blocks of strings -/

variable {h h' : BlockHeap UInt8} {size : ℕ} {text : Text} {n : ℕ}

/-- A cleared block is added. -/
theorem newBlock_eq (junk : ℕ → ℕ → UInt8) (h : BlockHeap UInt8) (hsize : size ≤ ptrdiffMax) :
    ∃ line h', newBlock junk size h = some (line, h') ∧ h.Adds h' line (List.replicate size 0) := by
  let cells := (List.range size).map (junk h.blocks.length)
  have hadds : h.Adds (h.alloc cells).2 (h.alloc cells).1 cells := adds_alloc h cells
  have hlength : cells.length = size := by simp [cells]
  have hclear : clear size cells = some (List.replicate size 0) := by
    simp [clear, hlength, List.drop_eq_nil_of_le]
  refine ⟨_, _, ?_, hadds.put (List.replicate size 0)⟩
  rw [newBlock, malloc, Nat.mul_one, if_pos hsize, Option.bind_some]
  simp only [edit_eq hadds.block_self, hclear, Option.map_some, cells]

/-- A string that gets a block of its own size is added. -/
theorem newString_eq (junk : ℕ → ℕ → UInt8) (h : BlockHeap UInt8)
    (hsize : text.1.length + 1 ≤ ptrdiffMax) :
    ∃ line h', newString junk (text.1.length + 1) text.cells h = some (line, h') ∧
      h.Adds h' line text.cells := by
  obtain ⟨line, h₁, hnew, hadds⟩ := newBlock_eq junk h hsize
  have hcopy : strcpy (List.replicate (text.1.length + 1) 0) text.cells = some text.cells := by
    rw [Text.cells, strcpy_eq text.2 (by simp), List.drop_eq_nil_of_le (by simp)]
  refine ⟨line, _, ?_, hadds.put text.cells⟩
  simp only [newString, hnew, Option.bind_some, edit_eq hadds.block_self, hcopy, Option.map_some]

/-- A string that gets too small a block, or none at all, is a fault. -/
theorem newString_eq_none (junk : ℕ → ℕ → UInt8) (h : BlockHeap UInt8)
    (hsize : size ≤ text.1.length ∨ ptrdiffMax < size) :
    newString junk size text.cells h = none := by
  by_cases hlarge : ptrdiffMax < size
  · rw [newString, newBlock, malloc, Nat.mul_one, if_neg (Nat.not_le.mpr hlarge)]
    rfl
  · obtain ⟨line, h₁, hnew, hadds⟩ := newBlock_eq junk h (Nat.not_lt.mp hlarge)
    have hsmall : size ≤ text.1.length := hsize.resolve_right hlarge
    have hcopy : strcpy (List.replicate size 0) text.cells = none :=
      strcpy_eq_none text.2 (by rwa [List.length_replicate]) []
    simp only [newString, hnew, Option.bind_some, edit_eq hadds.block_self, hcopy, Option.map_none]

/-- The size that is computed for a new string that is too long. -/
theorem lineSize_of_large (hn : ¬n < 2 ^ 31) : lineSize n ≤ n ∨ ptrdiffMax < lineSize n := by
  unfold lineSize ptrdiffMax
  rw [Int.bmod_def]
  split_ifs <;> omega

/-- The size that is computed for the last string. -/
theorem lastSize_eq (hn : n + 1 < 2 ^ 31) : lastSize n = n + 1 := by
  unfold lastSize
  rw [Int.bmod_def]
  split_ifs <;> omega

/-- The size that is computed for a last string that is too long. -/
theorem lastSize_of_large (hn : ¬n + 1 < 2 ^ 31) : lastSize n ≤ n ∨ ptrdiffMax < lastSize n := by
  unfold lastSize ptrdiffMax
  rw [Int.bmod_def]
  split_ifs <;> omega

/-! ### Pointers to strings -/

variable {rows : List ℕ} {row : ℕ} {l : List Text}

namespace Points

/-- There is a pointer for each string. -/
theorem length_eq (hpoints : Points h rows l) : rows.length = l.length := by
  simpa using congrArg List.length hpoints.block_eq

/-- The block of a pointer is live. -/
theorem live (hpoints : Points h rows l) (hrow : row ∈ rows) :
    ∃ cells, h.block row = some cells := by
  have hmem : h.block row ∈ rows.map h.block := List.mem_map_of_mem hrow
  rw [hpoints.block_eq] at hmem
  obtain ⟨text, -, htext⟩ := List.mem_map.mp hmem
  exact ⟨text.cells, htext.symm⟩

/-- Only the blocks of the pointers matter. -/
theorem of_block_eq (hpoints : Points h rows l)
    (hblock : ∀ row ∈ rows, h'.block row = h.block row) : Points h' rows l where
  nodup := hpoints.nodup
  block_eq := by rw [List.map_congr_left hblock, hpoints.block_eq]

/-- One more pointer. -/
theorem append_iff : Points h (rows ++ [row]) (l ++ [text]) ↔
    Points h rows l ∧ row ∉ rows ∧ h.block row = some text.cells := by
  have hnodup : (rows ++ [row]).Nodup ↔ row ∉ rows ∧ rows.Nodup := by
    rw [← List.concat_eq_append, List.nodup_concat]
  constructor
  · rintro ⟨hrows, hblock⟩
    rw [List.map_append, List.map_append] at hblock
    obtain ⟨hblocks, hrow⟩ := List.append_inj' hblock rfl
    exact ⟨⟨(hnodup.mp hrows).2, hblocks⟩, (hnodup.mp hrows).1, List.head_eq_of_cons_eq hrow⟩
  · rintro ⟨hpoints, hrow, htext⟩
    refine ⟨hnodup.mpr ⟨hrow, hpoints.nodup⟩, ?_⟩
    rw [List.map_append, List.map_append, hpoints.block_eq, List.map_singleton,
      List.map_singleton, htext]

/-- The last pointer and the last string. -/
theorem exists_append (hpoints : Points h rows l) (hne : l ≠ []) :
    ∃ init row texts text, rows = init ++ [row] ∧ l = texts ++ [text] := by
  have hrows : rows ≠ [] := by
    rintro rfl
    exact hne (List.length_eq_zero_iff.mp hpoints.length_eq.symm)
  exact ⟨rows.dropLast, rows.getLast hrows, l.dropLast, l.getLast hne,
    (List.dropLast_append_getLast hrows).symm, (List.dropLast_append_getLast hne).symm⟩

/-- A new string leaves the pointers as they are, and is none of them. -/
theorem of_adds (hpoints : Points h rows l) (hadds : h.Adds h' row text.cells) :
    Points h' (rows ++ [row]) (l ++ [text]) := by
  refine append_iff.mpr ⟨hpoints.of_block_eq fun old hold => ?_, fun hmem => ?_, hadds.block_self⟩
  · obtain ⟨cells, hcells⟩ := hpoints.live hold
    rw [hadds.block_of_live hcells, hcells]
  · obtain ⟨cells, hcells⟩ := hpoints.live hmem
    exact hadds.ne hcells rfl

/-- The block of a pointer that is dropped may be freed. -/
theorem eraseIdx (hpoints : Points h rows l) {i : ℕ} (hi : i < rows.length) :
    Points (h.put rows[i] none) (rows.eraseIdx i) (l.eraseIdx i) where
  nodup := hpoints.nodup.eraseIdx i
  block_eq := by
    have hother : ∀ row ∈ rows.eraseIdx i, (h.put rows[i] none).block row = h.block row := by
      intro row hrow
      obtain ⟨j, hj, hne, rfl⟩ := List.mem_eraseIdx_iff_getElem.mp hrow
      exact block_put_of_ne (fun heq => hne (hpoints.nodup.getElem_inj_iff.mp heq)) none
    rw [List.map_congr_left hother, ← List.eraseIdx_map, hpoints.block_eq, List.eraseIdx_map]

/-- The last string may be moved to a new block. -/
theorem move {newRow : ℕ} (hpoints : Points h (rows ++ [row]) (l ++ [text]))
    (hadds : h.Adds h' newRow text.cells) :
    Points (h'.put row none) (rows ++ [newRow]) (l ++ [text]) := by
  obtain ⟨hinit, hrow, htext⟩ := append_iff.mp hpoints
  refine (hinit.of_adds hadds).of_block_eq fun old hold => block_put_of_ne ?_ none
  rcases List.mem_append.mp hold with hmem | hmem
  · rintro rfl
    exact hrow hmem
  · rw [List.mem_singleton.mp hmem]
    exact (hadds.ne htext).symm

end Points

/-! ### Pushes -/

variable {junk : StringJunk} {held : Held StringMem}

/-- A string is as long as it is. -/
theorem strlen_cells (text : Text) : strlen text.cells = some text.1.length :=
  strlen_append text.2 []

/-- A push that fits appends. -/
theorem call_push_string (hholds : HoldsStrings held l) (hfits : FitsString l (.push text)) :
    ∃ held', (strings junk).call held (.push text) = some (held', 0) ∧
      HoldsStrings held' (l ++ [text]) := by
  obtain ⟨hcount, hlength⟩ := hfits
  obtain ⟨rows, hstored, hpoints⟩ := hholds.rows
  have hrows : rows.length = l.length := hpoints.length_eq
  rw [← hrows] at hcount
  obtain ⟨vecTmp, arrays, cell, hgrow, hblock⟩ : ∃ vecTmp arrays cell,
      grow junk.arrays 8 rows.length held.vec held.mem.arrays = some (vecTmp, arrays) ∧
        arrays.block vecTmp = some (rows ++ [cell]) := grow_eq hstored hcount (by decide)
  have hsize : text.1.length + 1 ≤ ptrdiffMax := Nat.le_trans hlength (by decide)
  obtain ⟨line, lines, hnew, hadds⟩ := newString_eq junk.strings held.mem.strings hsize
  have hstore := store_new hblock line
  refine ⟨⟨⟨arrays.put vecTmp (some (rows ++ [line])), lines⟩, vecTmp, rows.length + 1⟩, ?_, ?_, ?_,
    rows ++ [line], fun _ => block_put_self hblock _, hpoints.of_adds hadds⟩
  · have hpush : pushBackString junk rows.length held.vec text.cells held.mem =
        some (⟨arrays.put vecTmp (some (rows ++ [line])), lines⟩, vecTmp, 0) := by
      simp only [pushBackString, hgrow, Option.bind_some]
      rw [strlen_cells, Option.bind_some, lineSize_eq hlength, hnew, Option.bind_some, hstore,
        Option.map_some]
    simp only [Functions.call, strings, hholds.count_eq, ← hrows, hpush, Option.map_some]
    rfl
  · simp [hrows]
  · simpa [hrows] using hcount

/-- A push that does not fit faults. -/
theorem call_push_string_eq_none (hholds : HoldsStrings held l)
    (hfits : ¬FitsString l (.push text)) : (strings junk).call held (.push text) = none := by
  by_cases hcount : l.length + 1 < 2 ^ 31
  · have hlarge : ¬text.1.length < 2 ^ 31 := fun hlength => hfits ⟨hcount, hlength⟩
    have hnew : newString junk.strings (lineSize text.1.length) text.cells held.mem.strings =
        none := newString_eq_none junk.strings held.mem.strings (lineSize_of_large hlarge)
    have hpush : pushBackString junk held.count held.vec text.cells held.mem = none := by
      unfold pushBackString
      cases grow junk.arrays 8 held.count held.vec held.mem.arrays with
      | none => rfl
      | some grown =>
        simp only [Option.bind_some]
        rw [strlen_cells, Option.bind_some, hnew, Option.bind_none]
    simp only [Functions.call, strings, hpush, Option.map_none]
  · have hgrow : grow junk.arrays 8 held.count held.vec held.mem.arrays = none := by
      rw [hholds.count_eq]
      exact if_neg hcount
    simp only [Functions.call, strings, pushBackString, hgrow, Option.bind_none, Option.map_none]

/-! ### Erases -/

variable {m : StringMem} {vec i : ℕ} {cells : List ℕ} {k : ℕ} {index : ℤ}

/-- The last string is copied to a new block, and its old one is freed. -/
theorem moveLast_eq (hblock : m.arrays.block vec = some cells) (hrow : cells[k]? = some row)
    (hline : m.strings.block row = some text.cells) (hlength : text.1.length + 1 < 2 ^ 31) :
    ∃ newLast lines, m.strings.Adds lines newLast text.cells ∧ moveLast junk vec m k =
        some ⟨m.arrays.put vec (some (cells.set (k - 1) newLast)), lines.put row none⟩ := by
  have hsize : text.1.length + 1 ≤ ptrdiffMax := Nat.le_trans (Nat.le_of_lt hlength) (by decide)
  obtain ⟨newLast, lines, hnew, hadds⟩ := newString_eq junk.strings m.strings hsize
  have hload : m.arrays.load vec k = some row := by rw [load_eq hblock, hrow]
  have hfree : lines.free row = some (lines.put row none) := free_eq (hadds.block_of_live hline)
  have hk : k < cells.length := (List.getElem?_eq_some_iff.mp hrow).1
  have hstore := store_eq hblock (Nat.lt_of_le_of_lt (Nat.sub_le k 1) hk) newLast
  refine ⟨newLast, lines, hadds, ?_⟩
  rw [moveLast, hload, Option.bind_some, hline, Option.bind_some, strlen_cells, Option.bind_some,
    lastSize_eq hlength, hnew, Option.bind_some]
  simp only [hfree, hstore, Option.bind_some, Option.map_some]

/-- A last string that is too long is a fault. -/
theorem moveLast_eq_none (hload : m.arrays.load vec k = some row)
    (hline : m.strings.block row = some text.cells) (hlength : ¬text.1.length + 1 < 2 ^ 31) :
    moveLast junk vec m k = none := by
  have hnew : newString junk.strings (lastSize text.1.length) text.cells m.strings = none :=
    newString_eq_none junk.strings m.strings (lastSize_of_large hlength)
  rw [moveLast, hload, Option.bind_some, hline, Option.bind_some, strlen_cells, Option.bind_some,
    hnew, Option.bind_none]

/-- The rounds of an erase before the last string is moved: the erased string is freed, and the
pointers behind it are shifted. -/
theorem foldlM_eraseStringAt (junk : StringJunk) (hblock : m.arrays.block vec = some rows)
    (hpoints : Points m.strings rows l) (hi : i < rows.length) (hk : k ≤ rows.length)
    (hlast : k < rows.length ∨ k ≤ i + 1) :
    ∃ arrays, (List.range k).foldlM (eraseStringAt junk rows.length vec i) m =
        some ⟨arrays, if i < k then m.strings.put rows[i] none else m.strings⟩ ∧
      arrays.block vec = some (shifted i k rows) := by
  induction k with
  | zero => exact ⟨m.arrays, rfl, by rw [hblock, shifted_of_le (Nat.zero_le _) hk]⟩
  | succ k ih =>
    obtain ⟨arrays, hfold, harrays⟩ := ih (Nat.le_of_succ_le hk) (.inl hk)
    rw [List.range_succ, List.foldlM_append, hfold]
    simp only [Option.bind_eq_bind, Option.bind_some, List.foldlM_cons, List.foldlM_nil]
    rcases Nat.lt_trichotomy k i with hlt | rfl | hgt
    · rw [shifted_of_le (by omega) (by omega)] at harrays
      refine ⟨arrays, ?_, by rw [harrays, shifted_of_le (by omega) hk]⟩
      rw [eraseStringAt, if_pos (by omega), if_neg (by omega), if_neg (by omega)]
      rfl
    · rw [shifted_of_le (Nat.le_succ k) (by omega)] at harrays
      obtain ⟨cells, hcells⟩ := hpoints.live (List.getElem_mem hi)
      have hload : arrays.load vec k = some rows[k] := by
        rw [load_eq harrays, List.getElem?_eq_getElem hi]
      refine ⟨arrays, ?_, by rw [harrays, shifted_of_le (Nat.le_refl _) hk]⟩
      rw [eraseStringAt, if_neg (by omega), if_pos rfl, if_neg (by omega), if_pos (by omega)]
      simp only [hload, free_eq hcells, Option.bind_some, Option.map_some]
      rfl
    · refine ⟨_, ?_, block_put_self harrays (some (shifted i (k + 1) rows))⟩
      rw [eraseStringAt, if_neg (by omega), if_neg (by omega), if_pos (by omega),
        if_pos (by omega), shift_eq harrays hgt hk, if_pos (by omega)]
      rfl

/-- The rounds of an erase before the last element: in the last round the last string is moved. -/
theorem foldlM_eraseStringAt_inner (hblock : m.arrays.block vec = some (rows ++ [row]))
    (hpoints : Points m.strings (rows ++ [row]) (l ++ [text])) (hi : i < rows.length) :
    ∃ m', (List.range (rows.length + 1)).foldlM (eraseStringAt junk (rows.length + 1) vec i) m =
        moveLast junk vec m' rows.length ∧
      m'.arrays.block vec = some (shifted i rows.length (rows ++ [row])) ∧
      Points m'.strings (rows.eraseIdx i ++ [row]) (l.eraseIdx i ++ [text]) := by
  have hlength : (rows ++ [row]).length = rows.length + 1 := List.length_append
  have hl : i < l.length := by
    rw [← (Points.append_iff.mp hpoints).1.length_eq]
    exact hi
  have hrows : i < (rows ++ [row]).length := by omega
  have hbefore : rows.length < (rows ++ [row]).length := by omega
  obtain ⟨arrays, hfold, harrays⟩ :=
    foldlM_eraseStringAt junk hblock hpoints hrows (Nat.le_of_lt hbefore) (.inl hbefore)
  have herase := hpoints.eraseIdx hrows
  rw [List.eraseIdx_append_of_lt_length hi, List.eraseIdx_append_of_lt_length hl] at herase
  rw [hlength, if_pos hi] at hfold
  refine ⟨⟨arrays, m.strings.put (rows ++ [row])[i] none⟩, ?_, harrays, herase⟩
  rw [List.range_succ, List.foldlM_append, hfold]
  simp only [Option.bind_eq_bind, Option.bind_some, List.foldlM_cons, List.foldlM_nil]
  rw [eraseStringAt, if_neg (by omega), if_neg (by omega), if_neg (by omega)]
  exact Option.bind_fun_some _

/-- The end of an erase. -/
theorem eraseString_of_foldlM {m' : StringMem}
    (hfold : (List.range (n + 1)).foldlM (eraseStringAt junk (n + 1) vec i) m = some m')
    (hblock : m'.arrays.block vec = some cells) (hlength : cells.length = n + 1)
    (hcount : n < 2 ^ 31) (hi : i < n + 1) : ∃ arrays vec', eraseString junk (n + 1) vec i m =
        some (⟨arrays, m'.strings⟩, vec', if n = 0 then 1 else 0) ∧
      Stored arrays vec' (cells.take n) := by
  obtain ⟨arrays, vec', hshrink, hstored⟩ : ∃ arrays vec',
      shrink junk.arrays 8 n vec m'.arrays = some (arrays, vec', if n = 0 then 1 else 0) ∧
        Stored arrays vec' (cells.take n) := shrink_eq hblock hlength hcount (by decide)
  refine ⟨arrays, vec', ?_, hstored⟩
  rw [eraseString, checked_eq _ hi, hfold, Option.bind_some, Nat.add_sub_cancel, hshrink,
    Option.map_some]

/-- `VECTOR_EraseString` inside of the vector. -/
theorem eraseString_eq (hblock : m.arrays.block vec = some (rows ++ [row]))
    (hpoints : Points m.strings (rows ++ [row]) (l ++ [text])) (hcount : rows.length < 2 ^ 31)
    (hi : i < rows.length + 1) (hlength : i < rows.length → text.1.length + 1 < 2 ^ 31) :
    ∃ m' vec' rows', eraseString junk (rows.length + 1) vec i m =
        some (m', vec', if rows.length = 0 then 1 else 0) ∧
      Stored m'.arrays vec' rows' ∧ Points m'.strings rows' ((l ++ [text]).eraseIdx i) := by
  have hrows : (rows ++ [row]).length = rows.length + 1 := List.length_append
  rcases Nat.lt_or_ge i rows.length with hinner | houter
  · -- the last string is moved
    obtain ⟨m₁, hfold, hblock₁, hpoints₁⟩ :=
      @foldlM_eraseStringAt_inner _ _ _ _ junk _ _ _ hblock hpoints hinner
    have hl : i < l.length := (Points.append_iff.mp hpoints).1.length_eq ▸ hinner
    have hle : rows.length ≤ (rows ++ [row]).length := by omega
    have hrow := getElem?_shifted_last (l := rows) i row
    have hline : m₁.strings.block row = some text.cells := (Points.append_iff.mp hpoints₁).2.2
    obtain ⟨newLast, lines, hadds, hmove⟩ :=
      @moveLast_eq _ _ junk _ _ _ _ hblock₁ hrow hline (hlength hinner)
    have hcells : ((shifted i rows.length (rows ++ [row])).set (rows.length - 1) newLast).length =
        rows.length + 1 := by rw [List.length_set, length_shifted i hle, hrows]
    obtain ⟨arrays, vec', herase, hstored⟩ :=
      eraseString_of_foldlM (hfold.trans hmove) (block_put_self hblock₁ _) hcells hcount hi
    rw [take_set_shifted hinner] at hstored
    refine ⟨_, vec', _, herase, hstored, ?_⟩
    rw [List.eraseIdx_append_of_lt_length hl]
    exact hpoints₁.move hadds
  · -- the last string is the erased one
    have hlt : i < (rows ++ [row]).length := by omega
    obtain ⟨arrays₁, hfold, hblock₁⟩ :=
      foldlM_eraseStringAt junk hblock hpoints hlt (Nat.le_refl _) (.inr (by omega))
    have htake := take_shifted hlt
    have hcells := length_shifted i (Nat.le_refl (rows ++ [row]).length)
    rw [if_pos hlt] at hfold
    rw [hrows] at hfold hblock₁ htake hcells
    obtain ⟨arrays, vec', herase, hstored⟩ :=
      eraseString_of_foldlM hfold hblock₁ hcells hcount hi
    rw [Nat.add_sub_cancel] at htake
    rw [htake] at hstored
    exact ⟨_, vec', _, herase, hstored, hpoints.eraseIdx hlt⟩

/-- `VECTOR_EraseString` where the last string is moved and is too long. -/
theorem eraseString_eq_none (hblock : m.arrays.block vec = some (rows ++ [row]))
    (hpoints : Points m.strings (rows ++ [row]) (l ++ [text])) (hi : i < rows.length)
    (hlength : ¬text.1.length + 1 < 2 ^ 31) :
    eraseString junk (rows.length + 1) vec i m = none := by
  obtain ⟨m₁, hfold, hblock₁, hpoints₁⟩ :=
    @foldlM_eraseStringAt_inner _ _ _ _ junk _ _ _ hblock hpoints hi
  have hload : m₁.arrays.load vec rows.length = some row := by
    rw [load_eq hblock₁, getElem?_shifted_last]
  have hline : m₁.strings.block row = some text.cells := (Points.append_iff.mp hpoints₁).2.2
  rw [eraseString, checked_eq _ (Nat.lt_succ_of_lt hi), hfold, moveLast_eq_none hload hline hlength,
    Option.bind_none]

/-- An erase that fits erases, or returns a negative code and leaves everything as it is. -/
theorem call_erase_string (hholds : HoldsStrings held l) (hfits : FitsString l (.erase index)) :
    ∃ held', (strings junk).call held (.erase index) = some (held', ((Op.erase index).apply l).2) ∧
      HoldsStrings held' ((Op.erase index).apply l).1 := by
  have hcount := hholds.count_eq
  rcases index_cases index l.length with hout | ⟨i, hi, rfl⟩
  · rw [apply_erase_out hout, ← hcount]
    rw [← hcount] at hout
    exact ⟨held, Functions.call_erase_out rfl hout, hholds⟩
  · obtain ⟨rows, hstored, hpoints⟩ := hholds.rows
    obtain ⟨init, row, texts, text, rfl, rfl⟩ :=
      hpoints.exists_append (List.ne_nil_of_length_pos (by omega))
    have hlt := hholds.count_lt
    have hinit : init.length = texts.length := (Points.append_iff.mp hpoints).1.length_eq
    have hlength : (texts ++ [text]).length = init.length + 1 := by simp [hinit]
    rw [hlength] at hi hlt hcount
    have hlast : i < init.length → text.1.length + 1 < 2 ^ 31 := fun hinner =>
      hfits i rfl (by omega) text (by simp)
    obtain ⟨m', vec', rows', herase, hstored', hpoints'⟩ :=
      @eraseString_eq _ _ _ _ junk _ _ _ (hstored (by simp)) hpoints (by omega) hi hlast
    have herased : ((texts ++ [text]).eraseIdx i).length = init.length := by
      rw [List.length_eraseIdx_of_lt (by omega), hlength, Nat.add_sub_cancel]
    have hcode : ¬(if init.length = 0 then (1 : ℤ) else 0) < 0 := by split_ifs <;> decide
    rw [apply_erase (by omega), hlength, Nat.add_sub_cancel]
    have hless : ((texts ++ [text]).eraseIdx i).length < 2 ^ 31 := by omega
    refine ⟨⟨m', vec', init.length⟩, ?_, herased.symm, hless, rows', hstored', hpoints'⟩
    simp only [Functions.call, strings, hcount, herase, Option.map_some, if_neg hcode,
      Nat.add_sub_cancel]

/-- An erase that does not fit faults. -/
theorem call_erase_string_eq_none (hholds : HoldsStrings held l)
    (hfits : ¬FitsString l (.erase index)) : (strings junk).call held (.erase index) = none := by
  obtain ⟨i, rfl, hi, last, hlast, hlength⟩ : ∃ i : ℕ, index = i ∧ i + 1 < l.length ∧
      ∃ last ∈ l.getLast?, ¬last.1.length + 1 < 2 ^ 31 := by
    simpa only [FitsString, not_forall, exists_prop] using hfits
  obtain ⟨rows, hstored, hpoints⟩ := hholds.rows
  obtain ⟨init, row, texts, text, rfl, rfl⟩ :=
    hpoints.exists_append (List.ne_nil_of_length_pos (by omega))
  have hinit : init.length = texts.length := (Points.append_iff.mp hpoints).1.length_eq
  have hcount : held.count = init.length + 1 := by simp [hholds.count_eq, hinit]
  obtain rfl : text = last := by simpa using hlast
  have hinner : i < init.length := by
    rw [List.length_append, ← hinit] at hi
    exact Nat.lt_of_succ_lt_succ hi
  simp only [Functions.call, strings, hcount,
    eraseString_eq_none (hstored (by simp)) hpoints hinner hlength, Option.map_none]

/-- The vector of strings does what lists do exactly as long as its `int` variables hold what they
are computed for. -/
theorem strings_refinesIff (junk : StringJunk) :
    (strings junk).RefinesIff HoldsStrings FitsString := by
  refine Functions.refinesIff ?_ ?_ ?_
  · intro held hcount
    exact ⟨hcount, by decide, [], fun hne => absurd rfl hne, List.nodup_nil, rfl⟩
  · intro held l op hholds hfits
    cases op with
    | push text => exact call_push_string hholds hfits
    | erase index => exact call_erase_string hholds hfits
  · intro held l op hholds hfits
    cases op with
    | push text => exact call_push_string_eq_none hholds hfits
    | erase index => exact call_erase_string_eq_none hholds hfits

/-- The vectors of strings and of integers do what lists do, without a fault and without a pointer
to a freed block, exactly as long as their `int` variables hold what they are computed for. An
erase outside of the vector is always refused. -/
theorem vectors_refine_lists_iff (stringJunk : StringJunk) (intJunk : ℕ → ℕ → Int32) :
    (strings stringJunk).RefinesIff HoldsStrings FitsString ∧
      (ints intJunk).RefinesIff HoldsInts FitsInt ∧
      (strings stringJunk).RefusesOutside ∧ (ints intJunk).RefusesOutside :=
  ⟨strings_refinesIff stringJunk, ints_refinesIff intJunk,
    Functions.refusesOutside fun _ _ => ⟨_, rfl⟩, Functions.refusesOutside fun _ _ => ⟨_, rfl⟩⟩

-- The first of two strings is erased, which moves the second one, and an index is out of range.
example : ((strings ⟨fun _ _ => 0, fun _ _ => 7⟩).vector.run (⟨⟨.empty, .empty⟩, 0, 0⟩, [])
    [.push ⟨[97], by decide⟩, .push ⟨[98, 99], by decide⟩, .erase 0, .erase 1]).map
      (fun s => (s.1.mem.strings.blocks, s.2)) =
    some ([none, none, some [98, 99, 0]], [0, 0, 0, -2]) := by decide +kernel

/-- A string of four gigabytes gets a block of one byte and is copied past its end. -/
theorem long_string_overruns : ∃ text : Text, text.1.length = 2 ^ 32 ∧ lineSize text.1.length = 1 ∧
    (strings ⟨fun _ _ => 0, fun _ _ => 0⟩).vector.run (⟨⟨.empty, .empty⟩, 0, 0⟩, [])
      [.push text] = none := by
  let text : Text := ⟨List.replicate (2 ^ 32) 65, fun hmem =>
    absurd (List.eq_of_mem_replicate hmem) (by decide)⟩
  have hlength : text.1.length = 2 ^ 32 := List.length_replicate
  have hholds : HoldsStrings ⟨⟨.empty, .empty⟩, 0, 0⟩ [] :=
    ⟨rfl, by decide, [], fun hne => absurd rfl hne, List.nodup_nil, rfl⟩
  refine ⟨text, hlength, by rw [hlength]; rfl, ?_⟩
  have hfits : ¬FitsString [] (.push text) := fun hfits => absurd hfits.2 (by rw [hlength]; decide)
  rw [Machine.run, Functions.vector]
  simp only [call_push_string_eq_none hholds hfits, Option.map_none, Option.bind_none]

end Hack.CVector

namespace Hack.Grep

open CVector

/-- `BITGREP_EraseInt`, the copy of `VECTOR_EraseInt` in `grep/grep.c`. -/
def eraseInt (junk : ℕ → ℕ → Int32) (count vec : ℕ) (index : ℤ) (h : BlockHeap Int32) :
    Option (BlockHeap Int32 × ℕ × ℤ) :=
  CVector.eraseInt junk count vec index h

/-- `BITGREP_EraseString`, the copy of `VECTOR_EraseString` in `grep/grep.c`. -/
def eraseString (junk : StringJunk) (rowc vec : ℕ) (index : ℤ) (m : StringMem) :
    Option (StringMem × ℕ × ℤ) :=
  CVector.eraseString junk rowc vec index m

end Hack.Grep
