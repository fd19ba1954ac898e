import Hack.BlockHeap
import Hack.CString
import Mathlib.Algebra.Group.Int.Defs

/-!
# Reading the input of grep

This file embeds `BITGREP_MapStdinTo2d`, `BITGREP_PushBackInt`, and `BITGREP_PushBackString`
from `grep/grep.c`. The input is read in pieces into one growing string, which is then cut
into rows. A call that reads or writes outside of its memory, or whose `int` counters
overflow, has no result. The length of a row is kept in an `int` before it becomes the size
of an allocation, so a row of four gigabytes gets a block of one byte.
-/

namespace Hack.Grep

open BlockHeap (ptrdiffMax)
open CString

/-- The allocator: which sizes it can provide, and what fresh memory holds. -/
structure Heap where
  allocates : ℕ → Bool
  junk : ℕ → UInt8

/-- `malloc`, `none` for `NULL`. -/
def Heap.malloc (heap : Heap) (size : ℕ) : Option (List UInt8) :=
  if heap.allocates size then some ((List.range size).map heap.junk) else none

/-- `realloc`, `none` for `NULL`. -/
def Heap.realloc (heap : Heap) (block : List UInt8) (size : ℕ) : Option (List UInt8) :=
  if heap.allocates size then
    some (block.take size ++ (List.range (size - block.length)).map heap.junk)
  else none

/-- What the two functions that append to a vector do with it: they allocate an array for
the first element and reallocate the array for a further one, of the given width, and then
store the element. -/
def Heap.pushBack {α : Type*} [Inhabited α] (heap : Heap) (width count : ℕ) (vec : List α)
    (newEl : α) : Option (List α) :=
  let newCount := count + 1
  let old := if count = 0 then [] else vec
  if newCount < 2 ^ 31 ∧ heap.allocates (newCount * width) = true then
    some ((old.take newCount ++ List.replicate (newCount - old.length) default).set count newEl)
  else none

/-- `BITGREP_PushBackInt`. -/
def pushBackInt (heap : Heap) (count : ℕ) (vec : List ℕ) (newEl : ℕ) : Option (ℤ × List ℕ) :=
  (heap.pushBack 4 count vec newEl).map fun vec => (0, vec)

/-- The size that is computed for a row: its length becomes an `int` and then a `size_t`. -/
def lineSize (length : ℕ) : ℕ := (((length : ℤ).bmod (2 ^ 32) + 1) % 2 ^ 64).toNat

/-- `BITGREP_PushBackString`. -/
def pushBackString (heap : Heap) (rowc : ℕ) (vec : List (List UInt8)) (newEl : List UInt8) :
    Option (ℤ × List (List UInt8)) :=
  (strlen newEl).bind fun newLineLen =>
  (heap.malloc (lineSize newLineLen)).bind fun line =>
  (strcpy (List.replicate line.length 0) newEl).bind fun line =>
  (heap.pushBack 8 rowc vec line).map fun vec => (0, vec)

/-- `MAX_STDINPUT_WIDTH`. -/
def maxStdinputWidth : ℕ := 1024 * 1024

/-- The newline character. -/
def newline : UInt8 := 10

/-- The standard input: the bytes that can be read, and whether reading then fails. -/
structure Stdin where
  bytes : List UInt8
  error : Bool

/-- The bytes up to a newline, at most `n`. -/
def takeLine : ℕ → List UInt8 → List UInt8
  | 0, _ => []
  | _ + 1, [] => []
  | n + 1, byte :: bytes => if byte = newline then [byte] else byte :: takeLine n bytes

/-- `fgets`: what is read into the buffer, `none` for `NULL`. A piece that is cut off by an
error is lost. -/
def fgets (size : ℕ) (stdin : Stdin) : Option (List UInt8 × Stdin) :=
  let piece := takeLine (size - 1) stdin.bytes
  if piece = [] ∨ stdin.error = true ∧ piece.length < size - 1 ∧ piece.getLast? ≠ some newline then
    none
  else some (piece, { stdin with bytes := stdin.bytes.drop piece.length })

/-- A line is read from the front. -/
theorem takeLine_isPrefix (n : ℕ) (bytes : List UInt8) : takeLine n bytes <+: bytes := by
  induction n generalizing bytes with
  | zero => exact List.nil_prefix
  | succ n ih =>
    cases bytes with
    | nil => exact List.nil_prefix
    | cons byte bytes =>
      unfold takeLine
      split_ifs
      · exact List.prefix_cons_inj _ |>.mpr List.nil_prefix
      · exact List.prefix_cons_inj _ |>.mpr (ih bytes)

/-- A line has at most the given length. -/
theorem length_takeLine_le (n : ℕ) (bytes : List UInt8) : (takeLine n bytes).length ≤ n := by
  induction n generalizing bytes with
  | zero => exact Nat.le_refl 0
  | succ n ih =>
    cases bytes with
    | nil => exact Nat.zero_le _
    | cons byte bytes =>
      unfold takeLine
      split_ifs
      · exact Nat.succ_le_succ (Nat.zero_le n)
      · exact Nat.succ_le_succ (ih bytes)

variable {size : ℕ} {stdin stdin' : Stdin} {piece : List UInt8}

/-- `fgets` takes something from its input. -/
theorem length_of_fgets (h : fgets size stdin = some (piece, stdin')) :
    stdin'.bytes.length < stdin.bytes.length := by
  simp only [fgets, Option.ite_none_left_eq_some, not_or, Option.some_inj, Prod.mk.injEq] at h
  obtain ⟨⟨hpiece, -⟩, rfl, rfl⟩ := h
  have hle := (takeLine_isPrefix (size - 1) stdin.bytes).length_le
  have hpos := List.length_pos_of_ne_nil hpiece
  rw [List.length_drop]
  omega

/-- The loop that reads the input: `none` inside if `realloc` fails. -/
def readInput (heap : Heap) (stdin : Stdin) (getBuffer buffInput : List UInt8)
    (totalInputSize : ℕ) : Option (Option (List UInt8)) :=
  match _h : fgets maxStdinputWidth stdin with
  | none => some (some buffInput)
  | some (piece, stdin') =>
    (store getBuffer 0 piece).bind fun getBuffer =>
    (strlen getBuffer).bind fun length =>
    let totalInputSize := (totalInputSize + length) % 2 ^ 64
    match heap.realloc buffInput totalInputSize with
    | none => some none
    | some buffInput =>
      (strcat buffInput getBuffer).bind fun buffInput =>
        readInput heap stdin' getBuffer buffInput totalInputSize
termination_by stdin.bytes.length
decreasing_by exact length_of_fgets ‹_›

/-- `BITGREP_INPUT2D`. -/
structure Input2d where
  rowCount : ℕ
  buff2d : List (List UInt8)

/-- The body of the loop that cuts the input. -/
def pushRow (heap : Heap) (in2d : Input2d) (linePtr : List UInt8) : Option (ℤ × Input2d) :=
  (pushBackString heap in2d.rowCount in2d.buff2d linePtr).map fun (status, buff2d) =>
    if status < -1 then (-3, { in2d with buff2d }) else (0, ⟨in2d.rowCount + 1, buff2d⟩)

/-- The loop that cuts the input into rows. -/
def pushRows (heap : Heap) (in2d : Input2d) (buffInput : List UInt8) : Option (ℤ × Input2d) :=
  match _h : strsep newline buffInput with
  | none => none
  | some (linePtr, next) =>
    (pushRow heap in2d linePtr).bind fun (status, in2d) =>
      if status < 0 then some (status, in2d)
      else
        match _hnext : next with
        | none => some (0, in2d)
        | some buffInput' => pushRows heap in2d buffInput'
termination_by buffInput.length
decreasing_by exact length_of_strsep (by rwa [‹next = _›] at *)

/-- `BITGREP_MapStdinTo2d`. -/
def mapStdinTo2d (heap : Heap) (stdin : Stdin) (in2d : Input2d) : Option (ℤ × Input2d) :=
  (heap.malloc maxStdinputWidth).bind fun block =>
  (readInput heap stdin (List.replicate maxStdinputWidth 0) (List.replicate block.length 0) 1).bind
    fun
    | none => some (-1, in2d)
    | some buffInput => if stdin.error then some (-2, in2d) else pushRows heap in2d buffInput

variable {heap : Heap} {s bytes room : List UInt8} {length : ℕ} {block rest input : List UInt8}
  {result : ℤ × Input2d} {in2d : Input2d}

/-- An allocator that fails only for more bytes than `malloc` and `realloc` provide. -/
def Heap.Ample (heap : Heap) : Prop := ∀ size, heap.allocates size = true ↔ size ≤ ptrdiffMax

/-- A successful allocation has the size that was asked for. -/
theorem Heap.Ample.malloc (hheap : heap.Ample) (hsize : size ≤ ptrdiffMax) :
    ∃ block, heap.malloc size = some block ∧ block.length = size :=
  ⟨_, if_pos ((hheap size).mpr hsize), by rw [List.length_map, List.length_range]⟩

/-- A reallocation keeps a string that fits, and leaves the rest of the new size as room. -/
theorem Heap.Ample.realloc (hheap : heap.Ample) (s room : List UInt8) {extra : ℕ}
    (hsize : s.length + 1 + extra ≤ ptrdiffMax) :
    ∃ room', heap.realloc (s ++ 0 :: room) (s.length + 1 + extra) = some (s ++ 0 :: room') ∧
      room'.length = extra := by
  refine ⟨room.take extra ++ (List.range (extra - room.length)).map heap.junk, ?_, ?_⟩
  · rw [Heap.realloc, if_pos ((hheap _).mpr hsize), List.take_append,
      List.take_of_length_le (by omega)]
    have htake : s.length + 1 + extra - s.length = extra + 1 := by omega
    have hjunk : s.length + 1 + extra - (s ++ 0 :: room).length = extra - room.length := by
      rw [List.length_append, List.length_cons]
      omega
    rw [htake, hjunk, List.take_succ_cons, List.append_assoc, List.cons_append]
  · rw [List.length_append, List.length_take, List.length_map, List.length_range]
    omega

/-- An element is appended to a vector that holds as many elements as are counted. -/
theorem Heap.Ample.pushBack {α : Type*} [Inhabited α] (hheap : heap.Ample) {width : ℕ}
    (hwidth : width ≤ 8) (vec : List α) (hcount : vec.length + 1 < 2 ^ 31) (newEl : α) :
    heap.pushBack width vec.length vec newEl = some (vec ++ [newEl]) := by
  have hsize : (vec.length + 1) * width ≤ ptrdiffMax := by
    have hle := Nat.mul_le_mul hcount.le hwidth
    rw [ptrdiffMax]
    omega
  have hold : (if vec.length = 0 then [] else vec) = vec := by
    split_ifs with hzero
    · exact (List.length_eq_zero_iff.mp hzero).symm
    · rfl
  simp only [Heap.pushBack, hold]
  rw [if_pos ⟨hcount, (hheap _).mpr hsize⟩, List.take_of_length_le (by omega),
    Nat.add_sub_cancel_left, List.set_append_right _ _ le_rfl, Nat.sub_self]
  rfl

/-- The size that is computed for a row of less than two gigabytes. -/
theorem lineSize_eq (hlength : length < 2 ^ 31) : lineSize length = length + 1 := by
  have hupper : (length : ℤ) < (((2 ^ 32 : ℕ) : ℤ) + 1) / 2 := by omega
  have hsize : ((length : ℤ) + 1) % 2 ^ 64 = length + 1 := by omega
  unfold lineSize
  rw [Int.bmod_eq_of_le (by omega) hupper, hsize]
  rfl

/-- No longer row gets a block that it fits in. -/
theorem lt_of_lt_lineSize (hsize : lineSize length ≤ ptrdiffMax)
    (hroom : length < lineSize length) :
    length < 2 ^ 31 := by
  have hlower := Int.le_bmod (x := length) (Nat.two_pow_pos 32)
  have hupper := Int.bmod_lt (x := length) (Nat.two_pow_pos 32)
  unfold lineSize at hsize hroom
  unfold ptrdiffMax at hsize
  -- A negative `int` becomes a size that is too large, except for -1, which becomes zero.
  generalize (length : ℤ).bmod (2 ^ 32) = newLineLen at hlower hupper hsize hroom
  omega

/-- A row of less than two gigabytes is copied. -/
theorem Heap.Ample.pushBackString (hheap : heap.Ample) (vec : List (List UInt8))
    (hcount : vec.length + 1 < 2 ^ 31) (hs : 0 ∉ s) (hlength : s.length < 2 ^ 31)
    (rest : List UInt8) : pushBackString heap vec.length vec (s ++ 0 :: rest) =
      some (0, vec ++ [s ++ [0]]) := by
  have hsize : s.length + 1 ≤ ptrdiffMax := by
    rw [ptrdiffMax]
    omega
  obtain ⟨line, hmalloc, hline⟩ := hheap.malloc hsize
  rw [Grep.pushBackString, strlen_append hs, Option.bind_some, lineSize_eq hlength, hmalloc,
    Option.bind_some, strcpy_eq hs (by rw [List.length_replicate]; omega), Option.bind_some,
    List.drop_of_length_le (by rw [List.length_replicate]; omega),
    hheap.pushBack (by decide) vec hcount]
  rfl

/-- The block that `malloc` returns. -/
theorem Heap.malloc_eq_some (h : heap.malloc size = some block) :
    heap.allocates size = true ∧ block.length = size := by
  unfold Heap.malloc at h
  split_ifs at h with hsize
  exact ⟨hsize, by rw [← Option.some_inj.mp h, List.length_map, List.length_range]⟩

/-- A string is only copied into a block that it fits in. -/
theorem strcpy_isSome (hs : 0 ∉ s) {dest : List UInt8}
    (h : strcpy dest (s ++ 0 :: rest) = some block) : s.length < dest.length := by
  by_contra hroom
  rw [strcpy_eq_none hs (Nat.not_lt.mp hroom)] at h
  cases h

/-- A row that is appended is counted and measured by an `int`. -/
theorem Heap.Ample.pushBackString_eq_some (hheap : heap.Ample) (hs : 0 ∉ s) {rowc : ℕ}
    {vec : List (List UInt8)} {result : ℤ × List (List UInt8)}
    (h : Grep.pushBackString heap rowc vec (s ++ 0 :: rest) = some result) :
    result.1 = 0 ∧ rowc + 1 < 2 ^ 31 ∧ s.length < 2 ^ 31 := by
  rw [Grep.pushBackString, strlen_append hs, Option.bind_some] at h
  obtain ⟨line, hmalloc, h⟩ := Option.bind_eq_some_iff.mp h
  obtain ⟨block, hstrcpy, h⟩ := Option.bind_eq_some_iff.mp h
  obtain ⟨vec', hpush, rfl⟩ := Option.map_eq_some_iff.mp h
  obtain ⟨hsize, hline⟩ := Heap.malloc_eq_some hmalloc
  have hroom : s.length < lineSize s.length := by
    have hlt := strcpy_isSome hs hstrcpy
    rwa [List.length_replicate, hline] at hlt
  obtain ⟨hcount, -⟩ := Option.ite_none_right_eq_some.mp hpush
  exact ⟨rfl, hcount.1, lt_of_lt_lineSize ((hheap _).mp hsize) hroom⟩

/-- Something is read as long as something is left. -/
theorem takeLine_ne_nil {n : ℕ} (hn : 0 < n) (hbytes : bytes ≠ []) : takeLine n bytes ≠ [] := by
  obtain ⟨byte, bytes, rfl⟩ := List.exists_cons_of_ne_nil hbytes
  obtain ⟨n, rfl⟩ := Nat.exists_eq_succ_of_ne_zero hn.ne'
  unfold takeLine
  split_ifs <;> exact List.cons_ne_nil _ _

/-- Without an error `fgets` cuts a piece that fits into the buffer from the input. -/
theorem fgets_eq (hsize : 1 < size) (hbytes : bytes ≠ []) :
    ∃ piece rest, fgets size ⟨bytes, false⟩ = some (piece, ⟨rest, false⟩) ∧
      bytes = piece ++ rest ∧ piece.length < size := by
  have hprefix := List.prefix_iff_eq_append.mp (takeLine_isPrefix (size - 1) bytes)
  refine ⟨takeLine (size - 1) bytes, _, ?_, hprefix.symm, ?_⟩
  · simp only [fgets, Bool.false_eq_true, false_and, or_false]
    rw [if_neg (takeLine_ne_nil (by omega) hbytes)]
  · have hle := length_takeLine_le (size - 1) bytes
    omega

/-- At the end of the input `fgets` returns `NULL`. -/
theorem fgets_nil (size : ℕ) (error : Bool) : fgets size ⟨[], error⟩ = none := by
  have hpiece : takeLine (size - 1) [] = [] := by cases size - 1 <;> rfl
  simp [fgets, hpiece]

/-- The loop ends when nothing is left. -/
theorem readInput_of_none (h : fgets maxStdinputWidth stdin = none)
    (getBuffer buffInput : List UInt8) (total : ℕ) :
    readInput heap stdin getBuffer buffInput total = some (some buffInput) := by
  rw [readInput]
  split
  · rfl
  · rename_i heq
    cases h.symm.trans heq

/-- One round of the loop. -/
theorem readInput_of_some (h : fgets maxStdinputWidth stdin = some (piece, stdin'))
    (getBuffer buffInput : List UInt8) (total : ℕ) :
    readInput heap stdin getBuffer buffInput total = (store getBuffer 0 piece).bind fun getBuffer =>
      (strlen getBuffer).bind fun length =>
      match heap.realloc buffInput ((total + length) % 2 ^ 64) with
      | none => some none
      | some buffInput => (strcat buffInput getBuffer).bind fun buffInput =>
          readInput heap stdin' getBuffer buffInput ((total + length) % 2 ^ 64) := by
  rw [readInput]
  split
  · rename_i heq
    cases h.symm.trans heq
  · rename_i heq
    cases h.symm.trans heq
    rfl

/-- The loop collects the whole input in one string, if an object can have as many bytes. -/
theorem readInput_eq (hheap : heap.Ample) (hs : 0 ∉ s) (hbytes : 0 ∉ bytes)
    (hfit : s.length + 1 ≤ ptrdiffMax) {getBuffer : List UInt8}
    (hget : getBuffer.length = maxStdinputWidth) (room : List UInt8) :
    ∃ rest, readInput heap ⟨bytes, false⟩ getBuffer (s ++ 0 :: room) (s.length + 1) =
      some (if s.length + bytes.length + 1 ≤ ptrdiffMax then some (s ++ bytes ++ 0 :: rest)
        else none) := by
  -- The input gets shorter with every piece, and the string gets longer by it.
  induction hn : bytes.length using Nat.strong_induction_on generalizing s bytes getBuffer room with
  | _ n ih =>
    by_cases hnil : bytes = []
    · subst hnil
      refine ⟨room, ?_⟩
      rw [readInput_of_none (fgets_nil _ _), List.append_nil, ← hn, List.length_nil, Nat.add_zero,
        if_pos hfit]
    · obtain ⟨piece, bytes', hfgets, rfl, hpiece⟩ :=
        fgets_eq (by decide : 1 < maxStdinputWidth) hnil
      have hshorter : bytes'.length < (piece ++ bytes').length := length_of_fgets hfgets
      rw [List.mem_append, not_or] at hbytes
      obtain ⟨hzero, hbytes'⟩ := hbytes
      rw [List.length_append] at hn hshorter
      have hstore : store getBuffer 0 piece =
          some (piece ++ 0 :: getBuffer.drop (piece.length + 1)) := by
        rw [store, if_pos (by omega), Nat.zero_add]
        rfl
      have htotal : (s.length + 1 + piece.length) % 2 ^ 64 = s.length + 1 + piece.length := by
        rw [ptrdiffMax] at hfit
        rw [maxStdinputWidth] at hpiece
        exact Nat.mod_eq_of_lt (by omega)
      rw [readInput_of_some hfgets, hstore, Option.bind_some, strlen_append hzero, Option.bind_some,
        htotal]
      by_cases hsize : s.length + 1 + piece.length ≤ ptrdiffMax
      · obtain ⟨room', hrealloc, hroom'⟩ := hheap.realloc s room hsize
        simp only [hrealloc, strcat_eq hs hzero, hroom', le_rfl, if_true, Option.bind_some]
        have hlength : s.length + 1 + piece.length = (s ++ piece).length + 1 := by
          rw [List.length_append]
          omega
        have happend : 0 ∉ s ++ piece := by
          rw [List.mem_append, not_or]
          exact ⟨hs, hzero⟩
        have hsum : s.length + n = (s ++ piece).length + bytes'.length := by
          rw [List.length_append]
          omega
        rw [hlength, hsum, ← List.append_assoc]
        refine ih bytes'.length (by omega) happend hbytes' (by omega) ?_ _ rfl
        rw [List.length_append, List.length_cons, List.length_drop]
        omega
      · -- The string with this piece has more bytes than an object can have.
        have hrealloc : heap.realloc (s ++ 0 :: room) (s.length + 1 + piece.length) = none :=
          if_neg fun hallocates => hsize ((hheap _).mp hallocates)
        refine ⟨[], ?_⟩
        rw [if_neg (by omega)]
        simp only [hrealloc]

/-- The function cuts what it has read, unless it was too much. -/
theorem mapStdinTo2d_of_length (hheap : heap.Ample) (hinput : 0 ∉ input) (in2d : Input2d) :
    ∃ rest, mapStdinTo2d heap ⟨input, false⟩ in2d =
      if input.length + 1 ≤ ptrdiffMax then pushRows heap in2d (input ++ 0 :: rest)
      else some (-1, in2d) := by
  obtain ⟨block, hmalloc, hblock⟩ :=
    hheap.malloc (show maxStdinputWidth ≤ ptrdiffMax by decide +kernel)
  obtain ⟨rest, hread⟩ := readInput_eq hheap (s := []) (by simp) hinput (by decide +kernel)
    (List.length_replicate (n := maxStdinputWidth) (a := 0)) (List.replicate (block.length - 1) 0)
  simp only [List.length_nil, Nat.zero_add, List.nil_append] at hread
  have hzeros : List.replicate block.length (0 : UInt8) =
      0 :: List.replicate (block.length - 1) 0 := by
    rw [← List.replicate_succ, Nat.sub_add_cancel (by rw [hblock]; decide)]
  refine ⟨rest, ?_⟩
  simp only [mapStdinTo2d, hmalloc, Option.bind_some]
  rw [hzeros, hread]
  by_cases hsize : input.length + 1 ≤ ptrdiffMax
  · rw [if_pos hsize, if_pos hsize]
    rfl
  · rw [if_neg hsize, if_neg hsize]
    rfl

/-- One round of the loop that cuts the input. -/
theorem pushRows_of_strsep {buffInput linePtr : List UInt8} {next : Option (List UInt8)}
    (h : strsep newline buffInput = some (linePtr, next)) :
    pushRows heap in2d buffInput = (pushRow heap in2d linePtr).bind fun (status, in2d) =>
      if status < 0 then some (status, in2d)
      else
        match next with
        | none => some (0, in2d)
        | some buffInput' => pushRows heap in2d buffInput' := by
  rw [pushRows]
  split
  · rename_i heq
    cases h.symm.trans heq
  · rename_i heq
    cases h.symm.trans heq
    congr 1
    funext ⟨status, in2d⟩
    cases next <;> rfl

/-- A row is appended. -/
theorem Heap.Ample.pushRow (hheap : heap.Ample) (hrows : in2d.buff2d.length = in2d.rowCount)
    (hcount : in2d.rowCount + 1 < 2 ^ 31) (hs : 0 ∉ s) (hlength : s.length < 2 ^ 31)
    (rest : List UInt8) : pushRow heap in2d (s ++ 0 :: rest) =
      some (0, ⟨in2d.rowCount + 1, in2d.buff2d ++ [s ++ [0]]⟩) := by
  rw [Grep.pushRow, ← hrows, hheap.pushBackString _ (by omega) hs hlength]
  rfl

/-- A row that is appended is counted and measured by an `int`. -/
theorem Heap.Ample.pushRow_eq_some (hheap : heap.Ample) (hs : 0 ∉ s)
    (h : Grep.pushRow heap in2d (s ++ 0 :: rest) = some result) :
    result.1 = 0 ∧ result.2.rowCount = in2d.rowCount + 1 ∧ in2d.rowCount + 1 < 2 ^ 31 ∧
      s.length < 2 ^ 31 := by
  obtain ⟨⟨status, buff2d⟩, hpush, rfl⟩ := Option.map_eq_some_iff.mp h
  obtain ⟨hstatus, hcount, hlength⟩ := hheap.pushBackString_eq_some hs hpush
  obtain rfl : status = 0 := hstatus
  exact ⟨rfl, rfl, hcount, hlength⟩

/-- Induction over the rows of a string. -/
theorem rows_induction {motive : List UInt8 → Prop} (last : ∀ s, newline ∉ s → motive s)
    (cons : ∀ line s, newline ∉ line → motive s → motive (line ++ newline :: s))
    (s : List UInt8) : motive s := by
  induction hn : s.length using Nat.strong_induction_on generalizing s with
  | _ n ih =>
    by_cases hmem : newline ∈ s
    · obtain ⟨line, rest, rfl, hline⟩ := List.eq_append_cons_of_mem hmem
      refine cons line rest hline (ih rest.length ?_ rest rfl)
      rw [← hn, List.length_append, List.length_cons]
      omega
    · exact last s hmem

/-- The rows of a string with a first row. -/
theorem splitOn_append_newline {line : List UInt8} (hline : newline ∉ line) (s : List UInt8) :
    (line ++ newline :: s).splitOn newline = line :: s.splitOn newline := by
  rw [List.splitOn_append_cons_self, List.splitOn_eq_singleton hline, List.singleton_append]

/-- What the `int` variables of the program can count and measure: the rows of the input and
the bytes of each row. -/
structure ShortRows (input : List UInt8) : Prop where
  count : (input.splitOn newline).length < 2 ^ 31
  lengths : ∀ line ∈ input.splitOn newline, line.length < 2 ^ 31

/-- Rows of less than two gigabytes bound the length of the input. -/
theorem length_lt_of_rows (input : List UInt8)
    (hlengths : ∀ line ∈ input.splitOn newline, line.length < 2 ^ 31) :
    input.length < (input.splitOn newline).length * 2 ^ 31 := by
  induction input using rows_induction with
  | last s hs =>
    rw [List.splitOn_eq_singleton hs] at hlengths ⊢
    simpa using hlengths s (List.mem_singleton_self s)
  | cons line s hline ih =>
    rw [splitOn_append_newline hline] at hlengths ⊢
    have hfirst := hlengths line List.mem_cons_self
    have hrest := ih fun l hl => hlengths l (List.mem_cons_of_mem _ hl)
    rw [List.length_append, List.length_cons, List.length_cons]
    omega

/-- The loop appends the rows of the input. -/
theorem pushRows_eq (hheap : heap.Ample) (hrows : in2d.buff2d.length = in2d.rowCount) (hs : 0 ∉ s)
    (hcount : in2d.rowCount + (s.splitOn newline).length < 2 ^ 31)
    (hlengths : ∀ line ∈ s.splitOn newline, line.length < 2 ^ 31) (rest : List UInt8) :
    pushRows heap in2d (s ++ 0 :: rest) =
      some (0, ⟨in2d.rowCount + (s.splitOn newline).length,
        in2d.buff2d ++ (s.splitOn newline).map (· ++ [0])⟩) := by
  induction s using rows_induction generalizing in2d with
  | last s hlast =>
    rw [List.splitOn_eq_singleton hlast] at hcount hlengths ⊢
    rw [pushRows_of_strsep (strsep_eq_last hs hlast rest),
      hheap.pushRow hrows hcount hs (hlengths s (List.mem_singleton_self s))]
    rfl
  | cons line s hline ih =>
    rw [splitOn_append_newline hline] at hcount hlengths ⊢
    simp only [List.mem_append, List.mem_cons, not_or] at hs
    obtain ⟨hzero, -, hs⟩ := hs
    rw [List.length_cons] at hcount
    rw [pushRows_of_strsep (strsep_eq_cons hzero hs hline (by decide) rest),
      hheap.pushRow hrows (by omega) hzero (hlengths line List.mem_cons_self)]
    have hrows' : (in2d.buff2d ++ [line ++ [0]]).length = in2d.rowCount + 1 := by simp [hrows]
    have hnext := @ih ⟨in2d.rowCount + 1, in2d.buff2d ++ [line ++ [0]]⟩ hrows' hs
      (by simp only; omega) fun l hl => hlengths l (List.mem_cons_of_mem _ hl)
    simp only [Option.bind_some, Int.lt_irrefl, if_false, hnext]
    rw [List.map_cons, List.length_cons, List.append_assoc, List.singleton_append, Nat.add_assoc,
      Nat.add_comm 1]

/-- The loop ends only for rows that its `int` variables can count and measure. -/
theorem pushRows_eq_some (hheap : heap.Ample) (hs : 0 ∉ s)
    (h : pushRows heap in2d (s ++ 0 :: rest) = some result) :
    in2d.rowCount + (s.splitOn newline).length < 2 ^ 31 ∧
      ∀ line ∈ s.splitOn newline, line.length < 2 ^ 31 := by
  induction s using rows_induction generalizing in2d with
  | last s hlast =>
    rw [pushRows_of_strsep (strsep_eq_last hs hlast rest)] at h
    obtain ⟨⟨status, in2d'⟩, hrow, -⟩ := Option.bind_eq_some_iff.mp h
    obtain ⟨-, -, hcount, hlength⟩ := hheap.pushRow_eq_some hs hrow
    rw [List.splitOn_eq_singleton hlast]
    exact ⟨hcount, List.forall_mem_singleton.mpr hlength⟩
  | cons line s hline ih =>
    simp only [List.mem_append, List.mem_cons, not_or] at hs
    obtain ⟨hzero, -, hs⟩ := hs
    rw [pushRows_of_strsep (strsep_eq_cons hzero hs hline (by decide) rest)] at h
    obtain ⟨⟨status, in2d'⟩, hrow, h⟩ := Option.bind_eq_some_iff.mp h
    obtain ⟨hstatus, hnext, -, hlength⟩ := hheap.pushRow_eq_some hzero hrow
    obtain rfl : status = 0 := hstatus
    obtain ⟨hcount, hlengths⟩ := ih hs h
    rw [splitOn_append_newline hline, List.length_cons]
    refine ⟨?_, List.forall_mem_cons.mpr ⟨hlength, hlengths⟩⟩
    simp only at hnext
    omega

/-- The function stores the rows of its input, if they are short. -/
theorem mapStdinTo2d_eq (hheap : heap.Ample) (hinput : 0 ∉ input) (hshort : ShortRows input) :
    mapStdinTo2d heap ⟨input, false⟩ ⟨0, []⟩ =
      some (0, ⟨(input.splitOn newline).length, (input.splitOn newline).map (· ++ [0])⟩) := by
  have hlength := length_lt_of_rows input hshort.lengths
  have hcount := hshort.count
  have hsize : input.length + 1 ≤ ptrdiffMax := by
    rw [ptrdiffMax]
    omega
  obtain ⟨rest, hread⟩ := mapStdinTo2d_of_length hheap hinput ⟨0, []⟩
  rw [hread, if_pos hsize, pushRows_eq hheap rfl hinput (by simpa using hcount) hshort.lengths]
  simp

/-- The function succeeds only for short rows. -/
theorem mapStdinTo2d_eq_some (hheap : heap.Ample) (hinput : 0 ∉ input)
    (h : mapStdinTo2d heap ⟨input, false⟩ ⟨0, []⟩ = some result) (hstatus : 0 ≤ result.1) :
    ShortRows input := by
  obtain ⟨rest, hread⟩ := mapStdinTo2d_of_length hheap hinput ⟨0, []⟩
  rw [hread] at h
  split_ifs at h with hsize
  · obtain ⟨hcount, hlengths⟩ := pushRows_eq_some hheap hinput h
    rw [Nat.zero_add] at hcount
    exact ⟨hcount, hlengths⟩
  · cases h
    omega

end Hack.Grep
