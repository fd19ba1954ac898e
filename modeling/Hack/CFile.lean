import Hack.CString

/-!
# Files of strings

The functions of the C library that write a string to a file and read a line of a file, or the
whole of it, into an array. A file is the list of its bytes. A file that does not exist cannot be
read, and reading through the null pointer that `fopen` returns then is a fault.
-/

namespace Hack.CFile

open CString

/-- The files by their names. -/
abbrev Files := String → Option (List UInt8)

/-- `fopen` for writing, `fputs` and `fclose`: the file is what the string is. -/
def writeString (files : Files) (path : String) (block : List UInt8) : Option Files :=
  (cstr block).map fun s => Function.update files path (some s)

/-- A line of a text, with the newline that ends it, up to a number of characters. -/
def line : ℕ → List UInt8 → List UInt8
  | 0, _ => []
  | _, [] => []
  | k + 1, byte :: text => if byte = 10 then [byte] else byte :: line k text

/-- `fgets`: a line and a closing zero overwrite the beginning of the array. At the end of the
file the array stays as it is. -/
def fgets (dest : List UInt8) (size : ℕ) (text : List UInt8) : Option (List UInt8) :=
  if line (size - 1) text = [] then some dest else store dest 0 (line (size - 1) text)

/-- `fopen` for reading, `fgets` and `fclose`. -/
def readLine (files : Files) (path : String) (dest : List UInt8) (size : ℕ) : Option (List UInt8) :=
  (files path).bind fun text => fgets dest size text

/-- What comes of reading a whole file: it is opened, its size is asked for at its end, and its
bytes are read from the front. -/
inductive Attempt
  /-- The file cannot be opened. -/
  | notOpened
  /-- Its end is not found. -/
  | noEnd
  /-- Its size is not known. -/
  | noSize
  /-- Its front is not found. -/
  | noFront
  /-- Of its bytes only some are read. -/
  | broken (bufsize : ℕ) (front : List UInt8)
  /-- It is read. -/
  | whole (content : List UInt8)

variable {files : Files} {path : String} {text dest : List UInt8} {size : ℕ}

/-- Writing a string that stands at the front of a block. -/
theorem writeString_eq (files : Files) (path : String) (htext : 0 ∉ text) (rest : List UInt8) :
    writeString files path (text ++ 0 :: rest) =
      some (Function.update files path (some text)) := by
  rw [writeString, cstr_append htext, Option.map_some]

/-- A text without a newline is one line. -/
theorem line_eq_self {k : ℕ} (htext : 10 ∉ text) (hsize : text.length ≤ k) :
    line k text = text := by
  induction text generalizing k with
  | nil => cases k <;> rfl
  | cons byte text ih =>
    obtain ⟨k, rfl⟩ : ∃ j, k = j + 1 := Nat.exists_eq_add_one.mpr (by
      rw [List.length_cons] at hsize
      omega)
    have hbyte : byte ≠ 10 := fun h => htext (h ▸ List.mem_cons_self)
    have htail : 10 ∉ text := fun h => htext (List.mem_cons_of_mem _ h)
    rw [line, if_neg hbyte, ih htail (Nat.le_of_succ_le_succ hsize)]

/-- Reading a file of one line that fits into the array. -/
theorem readLine_eq (hfile : files path = some text) (htext : 10 ∉ text) (hne : text ≠ [])
    (hsize : text.length < size) (hdest : text.length < dest.length) :
    readLine files path dest size = some (text ++ 0 :: dest.drop (text.length + 1)) := by
  have hline : line (size - 1) text = text := line_eq_self htext (by omega)
  rw [readLine, hfile, Option.bind_some, fgets, hline, if_neg hne, store, Nat.zero_add,
    if_pos hdest, List.take_zero, List.nil_append]

end Hack.CFile
