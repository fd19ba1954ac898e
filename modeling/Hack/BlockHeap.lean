import Mathlib.Algebra.Group.Nat.Defs
import Mathlib.Data.List.Basic

/-!
# A heap of blocks

A heap is the list of all blocks that were ever allocated, each with its cells while it is live.
The address of a block is its place in the list, so no address is used twice, and an access
through the address of a freed block is a fault wherever it happens. A call that faults has no
result: a program that runs on this heap frees no block twice and reads none after it was freed.
The type of the cells is arbitrary.
-/

namespace Hack

/-- The blocks that were allocated, `none` for a freed one. -/
structure BlockHeap (α : Type*) where
  blocks : List (Option (List α))

namespace BlockHeap

variable {α : Type*} {h h' : BlockHeap α} {a b : ℕ} {cells : List α}

/-- The heap before the first allocation. -/
def empty : BlockHeap α := ⟨[]⟩

/-- The cells of a live block. -/
def block (h : BlockHeap α) (a : ℕ) : Option (List α) := (h.blocks[a]?).join

/-- The heap with other cells for a block, or without it. -/
def put (h : BlockHeap α) (a : ℕ) (cells : Option (List α)) : BlockHeap α :=
  ⟨h.blocks.set a cells⟩

/-- A new block, with its address. -/
def alloc (h : BlockHeap α) (cells : List α) : ℕ × BlockHeap α :=
  (h.blocks.length, ⟨h.blocks ++ [some cells]⟩)

/-- A live block is freed. -/
def free (h : BlockHeap α) (a : ℕ) : Option (BlockHeap α) :=
  (h.block a).map fun _ => h.put a none

/-- The cells of a live block are changed. -/
def edit (h : BlockHeap α) (a : ℕ) (change : List α → Option (List α)) : Option (BlockHeap α) :=
  (h.block a).bind fun cells => (change cells).map fun cells => h.put a (some cells)

/-- A cell of a live block. -/
def load (h : BlockHeap α) (a i : ℕ) : Option α := (h.block a).bind fun cells => cells[i]?

/-- A value is stored in a cell of a live block. -/
def store (h : BlockHeap α) (a i : ℕ) (v : α) : Option (BlockHeap α) :=
  h.edit a fun cells => if i < cells.length then some (cells.set i v) else none

/-- A live block is moved to a new one, which gets its cells as far as they fit. -/
def move (h : BlockHeap α) (a : ℕ) (resize : List α → List α) : Option (ℕ × BlockHeap α) :=
  (h.block a).map fun cells => (h.put a none).alloc (resize cells)

/-- `PTRDIFF_MAX`, the most bytes that `malloc` and `realloc` provide. -/
def ptrdiffMax : ℕ := 2 ^ 63 - 1

/-- `malloc` of cells of the given width, `none` for `NULL`. What fresh cells hold depends on
their address. -/
def malloc (junk : ℕ → ℕ → α) (width count : ℕ) (h : BlockHeap α) : Option (ℕ × BlockHeap α) :=
  if count * width ≤ ptrdiffMax then
    some (h.alloc ((List.range count).map (junk h.blocks.length)))
  else none

/-- `realloc` of cells of the given width, `none` for `NULL`. -/
def realloc (junk : ℕ → ℕ → α) (width count : ℕ) (a : ℕ) (h : BlockHeap α) :
    Option (ℕ × BlockHeap α) :=
  if count * width ≤ ptrdiffMax then
    h.move a fun cells =>
      cells.take count ++ (List.range (count - cells.length)).map (junk h.blocks.length)
  else none

/-- One heap has a new block more than the other and keeps all its live ones. -/
structure Adds (h h' : BlockHeap α) (a : ℕ) (cells : List α) : Prop where
  block_self : h'.block a = some cells
  ne {b : ℕ} {old : List α} : h.block b = some old → b ≠ a
  block_of_live {b : ℕ} {old : List α} : h.block b = some old → h'.block b = some old

/-- A live block has been allocated. -/
theorem lt_length (hblock : h.block a = some cells) : a < h.blocks.length := by
  by_contra hge
  rw [block, List.getElem?_eq_none (Nat.not_lt.mp hge)] at hblock
  cases hblock

/-- What becomes of the block itself. -/
theorem block_put_self (hblock : h.block a = some cells) (cells' : Option (List α)) :
    (h.put a cells').block a = cells' := by
  rw [block, put, List.getElem?_set_self (lt_length hblock), Option.join_some]

/-- What becomes of the other blocks. -/
theorem block_put_of_ne (hne : b ≠ a) (cells' : Option (List α)) :
    (h.put a cells').block b = h.block b := by
  rw [block, put, List.getElem?_set_ne hne.symm, block]

/-- The new block. -/
@[simp] theorem block_alloc_self (h : BlockHeap α) (cells : List α) :
    (h.alloc cells).2.block (h.alloc cells).1 = some cells := by
  rw [block, alloc, List.getElem?_concat_length, Option.join_some]

/-- The blocks before an allocation. -/
theorem block_alloc_of_lt (hlt : b < h.blocks.length) (cells : List α) :
    (h.alloc cells).2.block b = h.block b := by
  rw [block, alloc, List.getElem?_append_left hlt, block]

/-- A live block is not the new one. -/
theorem ne_alloc (hblock : h.block a = some cells) (cells' : List α) :
    a ≠ (h.alloc cells').1 := Nat.ne_of_lt (lt_length hblock)

/-- An allocation adds a block. -/
theorem adds_alloc (h : BlockHeap α) (cells : List α) :
    h.Adds (h.alloc cells).2 (h.alloc cells).1 cells where
  block_self := block_alloc_self h cells
  ne hold := ne_alloc hold cells
  block_of_live hold := by rw [block_alloc_of_lt (lt_length hold), hold]

/-- The new block may be changed. -/
theorem Adds.put (hadds : h.Adds h' a cells) (cells' : List α) :
    h.Adds (h'.put a (some cells')) a cells' where
  block_self := block_put_self hadds.block_self _
  ne := hadds.ne
  block_of_live hold := by rw [block_put_of_ne (hadds.ne hold), hadds.block_of_live hold]

section Block

variable (hblock : h.block a = some cells)
include hblock

/-- Freeing a live block. -/
theorem free_eq : h.free a = some (h.put a none) := by
  rw [free, hblock, Option.map_some]

/-- Reading a cell of a live block. -/
theorem load_eq (i : ℕ) : h.load a i = cells[i]? := by
  rw [load, hblock, Option.bind_some]

/-- Changing the cells of a live block. -/
theorem edit_eq (change : List α → Option (List α)) :
    h.edit a change = (change cells).map fun cells => h.put a (some cells) := by
  rw [edit, hblock, Option.bind_some]

/-- Storing in a cell of a live block. -/
theorem store_eq {i : ℕ} (hi : i < cells.length) (v : α) :
    h.store a i v = some (h.put a (some (cells.set i v))) := by
  rw [store, edit_eq hblock, if_pos hi, Option.map_some]

/-- Moving a live block. -/
theorem move_eq (resize : List α → List α) :
    h.move a resize = some ((h.put a none).alloc (resize cells)) := by
  rw [move, hblock, Option.map_some]

end Block

end BlockHeap

end Hack
