import Hack.Cpp
import Hack.Loop
import Mathlib.Data.List.Induction
import Mathlib.Data.Prod.Lex

/-!
# Zigzag conversion

This file embeds `convert` of `0xetc/0xcc/array/zigzag-conversion`. The string is written into a
tile column by column: a full column downwards, then columns with a single character each on the
way up, with spaces in the other cells. The rows of the tile without the spaces are the result.
It is compared with the closed form of the row that a character belongs to. The size of the
string is kept as an `int`, so that a longer string is not read to its end.
-/

namespace Hack.Zigzag

open Cpp Loop

/-! ### The closed form -/

/-- The row of the character at an index, for two rows or more. -/
def rowOf (numRows i : ℕ) : ℕ :=
  min (i % (2 * numRows - 2)) (2 * numRows - 2 - i % (2 * numRows - 2))

/-- The characters of a row, in the order of their indices. -/
def rowChars (numRows row : ℕ) (s : List UInt8) : List UInt8 :=
  (s.zipIdx.filter fun p => rowOf numRows p.2 = row).map Prod.fst

/-- The characters of a string row by row. -/
def zigzag (numRows : ℕ) (s : List UInt8) : List UInt8 :=
  if numRows = 1 then s else (List.range numRows).flatMap fun row => rowChars numRows row s

example : zigzag 3 [80, 65, 89, 80, 65, 76, 73, 83, 72, 73, 82, 73, 78, 71] =
    [80, 65, 72, 78, 65, 80, 76, 83, 73, 73, 71, 89, 73, 82] := by
  decide

/-! ### The code -/

/-- Where the function is. -/
inductive Place
  /-- At the front of the loop that fills a column downwards. -/
  | column
  /-- Behind it. -/
  | switch
  /-- At the front of the loop that fills the columns on the way up. -/
  | diagonal
  /-- Behind it. -/
  | check
deriving DecidableEq

/-- The variables of the function. -/
structure Vars where
  zzTile : List (List UInt8)
  reachedFull : Bool
  doSwitch : Bool
  i : ℕ
  rowPtr : ℕ
  colPtr : ℤ
  place : Place

/-- `push_back` on a row of the tile. -/
def pushBack (zzTile : List (List UInt8)) (row : ℕ) (c : UInt8) : Option (List (List UInt8)) :=
  if row < zzTile.length then some (zzTile.modify row (· ++ [c])) else none

/-- The cell that the loop on the way up writes, with the index behind it. -/
def cell (s : List UInt8) (v : Vars) : Option (UInt8 × ℕ) :=
  if v.rowPtr ≠ v.colPtr then some (32, v.i)
  else do
    let targetC ← subscript s v.i
    let i ← increment v.i
    some (targetC, i)

/-- A turn of one of the loops that fill the tile. -/
def turn (s : List UInt8) (numRows ssize : ℤ) (v : Vars) : Option (Turn Vars (List (List UInt8))) :=
  match v.place with
  | .column =>
    if v.reachedFull then some (.next { v with place := .switch })
    else do
      let targetC ← subscript s v.i
      let i ← increment v.i
      let zzTile ← pushBack v.zzTile v.rowPtr targetC
      let rowPtr ← increment v.rowPtr
      if i = ssize then some (.next { v with zzTile, i, rowPtr, place := .switch })
      else if rowPtr = numRows then
        some (.next { v with
          zzTile, i, rowPtr := 0, reachedFull := true, doSwitch := true, place := .switch })
      else some (.next { v with zzTile, i, rowPtr })
  | .switch =>
    if v.i = ssize then some (.leave v.zzTile)
    else if v.doSwitch then
      let colPtr := numRows - 2
      -- Two rows have no column on the way up.
      let reachedFull := if colPtr = 0 then false else v.reachedFull
      some (.next { v with doSwitch := false, colPtr, reachedFull, place := .column })
    else some (.next { v with place := .diagonal })
  | .diagonal =>
    if v.reachedFull then do
      let (targetC, i) ← cell s v
      let zzTile ← pushBack v.zzTile v.rowPtr targetC
      let rowPtr ← increment v.rowPtr
      if i = ssize then some (.next { v with zzTile, i, rowPtr, place := .check })
      else if rowPtr = numRows then
        let colPtr := v.colPtr - 1
        if colPtr < 1 then
          some (.next { v with
            zzTile, i, rowPtr := 0, colPtr, reachedFull := false, place := .check })
        else some (.next { v with zzTile, i, rowPtr := 0, colPtr })
      else some (.next { v with zzTile, i, rowPtr })
    else some (.next { v with place := .check })
  | .check =>
    if v.i = ssize then some (.leave v.zzTile)
    else some (.next { v with place := .column })

/-- The variables before the loops. The column has no value yet. -/
def start (numRows colPtr : ℤ) : Vars :=
  ⟨List.replicate numRows.toNat [], false, false, 0, 0, colPtr, .column⟩

/-- The last two loops: the rows one after the other, without the spaces. -/
def ans (zzTile : List (List UInt8)) : List UInt8 :=
  zzTile.flatMap fun row => (row.take (size row).toNat).filter (· ≠ 32)

/-- `convert`, with a limit on its turns. -/
def convert (s : List UInt8) (numRows colPtr : ℤ) (limit : ℕ) : Option (Option (List UInt8)) :=
  if numRows = 1 then some (some s)
  else (run (turn s numRows (size s)) limit (start numRows colPtr)).map (Option.map ans)

/-- The function ends and returns the characters row by row. -/
def Converts (s : List UInt8) (numRows : ℤ) : Prop :=
  ∀ colPtr, ∃ limit, convert s numRows colPtr limit = some (some (zigzag numRows.toNat s))

variable {s : List UInt8} {n k cols : ℕ} {v : Vars} {q r : ℕ}

/-! ### Rows -/

/-- The rows on the way down. -/
theorem rowOf_down (hn : 2 ≤ n) (hr : r < n) : rowOf n (q * (2 * n - 2) + r) = r := by
  have hmod : (q * (2 * n - 2) + r) % (2 * n - 2) = r := by
    rw [Nat.mul_add_mod_self_right, Nat.mod_eq_of_lt (by omega)]
  rw [rowOf, hmod]
  omega

/-- The rows on the way up. -/
theorem rowOf_up (hpos : 0 < r) (hr : r + 2 ≤ n) :
    rowOf n (q * (2 * n - 2) + (2 * n - 2 - r)) = r := by
  have hmod : (q * (2 * n - 2) + (2 * n - 2 - r)) % (2 * n - 2) = 2 * n - 2 - r := by
    rw [Nat.mul_add_mod_self_right, Nat.mod_eq_of_lt (by omega)]
  rw [rowOf, hmod]
  omega

theorem rowOf_lt (hn : 2 ≤ n) (i : ℕ) : rowOf n i < n := by
  have hmod : i % (2 * n - 2) < 2 * n - 2 := Nat.mod_lt _ (by omega)
  rw [rowOf]
  omega

/-- A character is appended to its row. -/
theorem rowChars_concat (n row : ℕ) (s : List UInt8) (c : UInt8) : rowChars n row (s ++ [c]) =
      rowChars n row s ++ if rowOf n s.length = row then [c] else [] := by
  rw [rowChars, List.zipIdx_append, List.filter_append, List.map_append, rowChars]
  congr 1
  by_cases hrow : rowOf n s.length = row <;> simp [hrow]

/-- A row after another character was read. -/
theorem rowChars_take_succ {row : ℕ} {c : UInt8} (hc : s[k]? = some c) :
    rowChars n row (s.take (k + 1)) =
      rowChars n row (s.take k) ++ if rowOf n k = row then [c] else [] := by
  obtain ⟨hk, -⟩ := List.getElem?_eq_some_iff.mp hc
  have hlength : (s.take k).length = k := by
    rw [List.length_take]
    omega
  have hconcat := rowChars_concat n row (s.take k) c
  rw [hlength] at hconcat
  rw [List.take_add_one, hc]
  exact hconcat

/-- The characters of the first rows are those whose row is one of them. -/
theorem flatMap_filter_rowOf_perm (n m : ℕ) (l : List (UInt8 × ℕ)) :
    ((List.range m).flatMap fun row => l.filter fun p => rowOf n p.2 = row).Perm
      (l.filter fun p => rowOf n p.2 < m) := by
  induction m with
  | zero => simp
  | succ m ih =>
    have hsplit := List.filter_append_perm (fun p => rowOf n p.2 < m)
      (l.filter fun p => rowOf n p.2 < m + 1)
    rw [List.filter_filter, List.filter_filter] at hsplit
    rw [List.range_succ, List.flatMap_append, List.flatMap_singleton]
    refine (ih.append_right _).trans (List.Perm.trans (.of_eq ?_) hsplit)
    congr 1 <;> apply List.filter_congr <;> intro p _
    · rw [← Bool.decide_and, decide_eq_decide]
      omega
    · rw [← decide_not, ← Bool.decide_and, decide_eq_decide]
      omega

/-- Every character is in one of the rows. -/
theorem perm_zigzag (hn : 1 ≤ n) (s : List UInt8) : (zigzag n s).Perm s := by
  rcases eq_or_ne n 1 with rfl | hone
  · exact .refl s
  have hall : (s.zipIdx.filter fun p => rowOf n p.2 < n) = s.zipIdx := by
    rw [List.filter_eq_self]
    intro p _
    exact decide_eq_true (rowOf_lt (by omega) p.2)
  have hperm := (flatMap_filter_rowOf_perm n n s.zipIdx).map Prod.fst
  rw [hall, List.zipIdx_map_fst, List.map_flatMap] at hperm
  rw [zigzag, if_neg hone]
  exact hperm

/-! ### The tile -/

/-- The tile after `k` characters: its rows hold the characters of the rows of the string, and
they have a cell in each of the columns that are done and in the part of the next column above
`rowPtr`. -/
structure Filled (s : List UInt8) (n k cols rowPtr : ℕ) (zzTile : List (List UInt8)) : Prop where
  length_eq : zzTile.length = n
  filter_eq : ∀ (row : ℕ) (h : row < zzTile.length),
    zzTile[row].filter (· ≠ 32) = rowChars n row (s.take k)
  length_le : ∀ (row : ℕ) (h : row < zzTile.length),
    zzTile[row].length ≤ cols + if row < rowPtr then 1 else 0

variable {zzTile : List (List UInt8)} {rowPtr : ℕ}

theorem filled_start (s : List UInt8) (n : ℕ) : Filled s n 0 0 0 (List.replicate n []) := by
  constructor
  · exact List.length_replicate
  · intro row h
    rw [List.getElem_replicate]
    rfl
  · intro row h
    rw [List.getElem_replicate]
    exact Nat.zero_le _

/-- A column is done. -/
theorem Filled.wrap (h : Filled s n k cols n zzTile) : Filled s n k (cols + 1) 0 zzTile := by
  refine ⟨h.length_eq, h.filter_eq, ?_⟩
  intro row hrow
  have hle := h.length_le row hrow
  rw [if_pos (h.length_eq ▸ hrow)] at hle
  omega

section Push

variable (h : Filled s n k cols rowPtr zzTile) (hrow : rowPtr < n)
include h hrow

/-- A cell is written: a space, or the next character in its row. -/
theorem Filled.pushBack {c : UInt8} {k' : ℕ}
    (hcell : ∀ row, rowChars n row (s.take k') = rowChars n row (s.take k) ++
      if rowPtr = row then [c].filter (· ≠ 32) else []) :
    ∃ zzTile', pushBack zzTile rowPtr c = some zzTile' ∧
      Filled s n k' cols (rowPtr + 1) zzTile' := by
  refine ⟨_, if_pos (h.length_eq ▸ hrow), ?_, ?_, ?_⟩
  · rw [List.length_modify, h.length_eq]
  · intro row hlt
    rw [List.length_modify] at hlt
    rw [List.getElem_modify, hcell, ← h.filter_eq row hlt]
    split_ifs
    · rw [List.filter_append]
    · rw [List.append_nil]
  · intro row hlt
    rw [List.length_modify] at hlt
    have hle := h.length_le row hlt
    rw [List.getElem_modify, apply_ite List.length, List.length_append, List.length_singleton]
    split_ifs at hle ⊢ <;> omega

theorem Filled.pushBack_space :
    ∃ zzTile', Zigzag.pushBack zzTile rowPtr 32 = some zzTile' ∧
      Filled s n k cols (rowPtr + 1) zzTile' := by
  apply h.pushBack hrow
  intro row
  simp

theorem Filled.pushBack_char {c : UInt8} (hc : s[k]? = some c) (hspace : c ≠ 32)
    (hrowOf : rowOf n k = rowPtr) :
    ∃ zzTile', Zigzag.pushBack zzTile rowPtr c = some zzTile' ∧
      Filled s n (k + 1) cols (rowPtr + 1) zzTile' := by
  apply h.pushBack hrow
  intro row
  rw [rowChars_take_succ hc, hrowOf]
  simp [hspace]

end Push

/-- The tile gives the characters row by row if the sizes of its rows fit. -/
theorem Filled.ans_eq (h : Filled s n k cols rowPtr zzTile) (hn : 2 ≤ n)
    (hcols : cols + 1 < 2 ^ 31) : ans zzTile = zigzag n (s.take k) := by
  rw [ans, zigzag, if_neg (by omega), List.flatMap_def, List.flatMap_def]
  congr 1
  apply List.ext_getElem
  · rw [List.length_map, List.length_map, List.length_range, h.length_eq]
  · intro row hlt _
    rw [List.length_map] at hlt
    have hle := h.length_le row hlt
    have hfit : zzTile[row].length < 2 ^ 31 := by
      split_ifs at hle <;> omega
    rw [List.getElem_map, List.getElem_map, List.getElem_range, size_eq hfit, Int.toNat_natCast,
      List.take_length, h.filter_eq row hlt]

/-! ### The loops -/

/-- On the way down in a period, with at least one character for every column. -/
structure Vars.Down (s : List UInt8) (n ssize q cols : ℕ) (v : Vars) : Prop where
  full : v.reachedFull = false
  switch : v.doSwitch = false
  more : v.i < ssize
  row_lt : v.rowPtr < n
  index : v.i = q * (2 * n - 2) + v.rowPtr
  cols_le : cols + v.rowPtr ≤ v.i
  filled : Filled s n v.i cols v.rowPtr v.zzTile

/-- A column is full. -/
structure Vars.Full (s : List UInt8) (n ssize q cols : ℕ) (v : Vars) : Prop where
  full : v.reachedFull = true
  more : v.i < ssize
  row : v.rowPtr = 0
  index : v.i = q * (2 * n - 2) + n
  cols_le : cols ≤ v.i
  filled : Filled s n v.i cols 0 v.zzTile

/-- On the way up. The column has its character once the row is passed. -/
structure Vars.Up (s : List UInt8) (n ssize q cols col : ℕ) (v : Vars) : Prop where
  full : v.reachedFull = true
  switch : v.doSwitch = false
  more : v.i < ssize
  row_lt : v.rowPtr < n
  col_eq : v.colPtr = col
  col_pos : 0 < col
  col_le : col + 2 ≤ n
  index : v.i = q * (2 * n - 2) + (2 * n - 2 - col) + (if col < v.rowPtr then 1 else 0)
  cols_le : cols + (if col < v.rowPtr then 1 else 0) ≤ v.i
  filled : Filled s n v.i cols v.rowPtr v.zzTile

/-- What holds while the tile is filled. -/
inductive Vars.Inv (s : List UInt8) (n ssize : ℕ) (v : Vars) : Prop
  | down (q cols : ℕ) : v.place = .column ∨ v.place = .check → v.Down s n ssize q cols →
      Inv s n ssize v
  /-- The flag says that a column is full. -/
  | full (q cols : ℕ) : v.place = .switch → v.doSwitch = true → v.Full s n ssize q cols →
      Inv s n ssize v
  /-- The flag is taken back, and the loop on the way down is passed by. -/
  | turned (q cols : ℕ) : v.place = .column ∨ v.place = .switch → v.doSwitch = false →
      2 < n → v.colPtr = n - 2 → v.Full s n ssize q cols → Inv s n ssize v
  | up (q cols col : ℕ) : v.place = .diagonal → v.Up s n ssize q cols col → Inv s n ssize v
  /-- All characters are read. -/
  | last (cols : ℕ) : v.place = .switch ∨ v.place = .check → v.i = ssize → cols + 1 ≤ v.i →
      Filled s n v.i cols v.rowPtr v.zzTile → Inv s n ssize v

/-- The columns that are left until the next one is filled downwards, with the places between. -/
def Vars.weight (n : ℕ) (v : Vars) : ℕ :=
  match v.place with
  | .column => if v.reachedFull then n + 2 else 0
  | .switch => if v.doSwitch then n + 3 else n + 1
  | .diagonal => v.colPtr.toNat + 1
  | .check => 1

/-- Every turn reads a character, comes nearer to the next full column or goes down one row. -/
def Vars.variant (n ssize : ℕ) (v : Vars) : ℕ ×ₗ ℕ ×ₗ ℕ :=
  toLex (ssize - v.i, toLex (v.weight n, n - v.rowPtr))

variable {ssize : ℕ} {v' : Vars}

theorem variant_lt_iff : v'.variant n ssize < v.variant n ssize ↔ ssize - v'.i < ssize - v.i ∨
      ssize - v'.i = ssize - v.i ∧ (v'.weight n < v.weight n ∨
        v'.weight n = v.weight n ∧ n - v'.rowPtr < n - v.rowPtr) := by
  rw [Vars.variant, Vars.variant, Prod.Lex.toLex_lt_toLex, Prod.Lex.toLex_lt_toLex]

/-- A turn that reads a character. -/
theorem variant_lt_of_read (hlt : v.i < v'.i) (hle : v'.i ≤ ssize) :
    v'.variant n ssize < v.variant n ssize := by
  rw [variant_lt_iff]
  omega

/-- A turn that only moves on. -/
theorem variant_lt_of_weight (hi : v'.i = v.i) (hlt : v'.weight n < v.weight n) :
    v'.variant n ssize < v.variant n ssize := by
  rw [variant_lt_iff]
  omega

/-- Two rows or more, no spaces, and counters that do not overflow. -/
structure Fits (s : List UInt8) (n ssize : ℕ) : Prop where
  two_le : 2 ≤ n
  rows_lt : n < 2 ^ 31
  no_space : 32 ∉ s
  size_le : ssize ≤ s.length
  size_lt : ssize < 2 ^ 31

/-- The next character. -/
theorem Fits.exists_char (h : Fits s n ssize) (hi : k < ssize) :
    ∃ c, subscript s k = some c ∧ s[k]? = some c ∧ c ≠ 32 := by
  have hlt : k < s.length := Nat.lt_of_lt_of_le hi h.size_le
  refine ⟨s[k], subscript_eq hlt, List.getElem?_eq_getElem hlt, ?_⟩
  intro hc
  exact h.no_space (hc ▸ List.getElem_mem hlt)

/-- The next turn keeps the invariant and decreases the variant. -/
def Advances (s : List UInt8) (n ssize : ℕ) (v : Vars) : Prop :=
  ∃ v', turn s n ssize v = some (.next v') ∧ v'.Inv s n ssize ∧
    v'.variant n ssize < v.variant n ssize

variable {c : UInt8} {i : ℕ} {col : ℕ} {numRows colPtr : ℤ}

/-- The turn that writes a cell on the way down. -/
theorem turn_column_eq (hplace : v.place = .column) (hfull : v.reachedFull = false)
    (hsubscript : subscript s v.i = some c) (hpush : pushBack v.zzTile v.rowPtr c = some zzTile)
    (hi : v.i + 1 < 2 ^ 31) (hrow : v.rowPtr + 1 < 2 ^ 31) :
    turn s n ssize v =
      if ((v.i + 1 : ℕ) : ℤ) = ssize then
        some (.next { v with zzTile, i := v.i + 1, rowPtr := v.rowPtr + 1, place := .switch })
      else if ((v.rowPtr + 1 : ℕ) : ℤ) = n then
        some (.next { v with
          zzTile, i := v.i + 1, rowPtr := 0, reachedFull := true, doSwitch := true
          place := .switch })
      else some (.next { v with zzTile, i := v.i + 1, rowPtr := v.rowPtr + 1 }) := by
  rw [turn, hplace]
  simp only [hfull, Bool.false_eq_true, if_false, hsubscript, hpush, Option.bind_eq_bind,
    Option.bind_some, increment_eq hi, increment_eq hrow]

/-- The turn that writes a cell on the way up. -/
theorem turn_diagonal_eq (hplace : v.place = .diagonal) (hfull : v.reachedFull = true)
    (hcell : cell s v = some (c, i)) (hpush : pushBack v.zzTile v.rowPtr c = some zzTile)
    (hrow : v.rowPtr + 1 < 2 ^ 31) :
    turn s n ssize v =
      if (i : ℤ) = ssize then
        some (.next { v with zzTile, i, rowPtr := v.rowPtr + 1, place := .check })
      else if ((v.rowPtr + 1 : ℕ) : ℤ) = n then
        if v.colPtr - 1 < 1 then
          some (.next { v with
            zzTile, i, rowPtr := 0, colPtr := v.colPtr - 1, reachedFull := false
            place := .check })
        else some (.next { v with zzTile, i, rowPtr := 0, colPtr := v.colPtr - 1 })
      else some (.next { v with zzTile, i, rowPtr := v.rowPtr + 1 }) := by
  rw [turn, hplace]
  simp only [hfull, if_true, hcell, Option.bind_eq_bind, Option.bind_some, hpush, increment_eq hrow]

/-- A turn on the way down. -/
theorem turn_down (h : Fits s n ssize) (hplace : v.place = .column)
    (hdown : v.Down s n ssize q cols) : Advances s n ssize v := by
  obtain ⟨hfull, hswitch, hi, hrow, hpos, hcols, hfilled⟩ := hdown
  obtain ⟨c, hsubscript, hc, hne⟩ := h.exists_char hi
  have hrows := h.rows_lt
  have hsize := h.size_lt
  have hread {v' : Vars} (hi' : v'.i = v.i + 1) : v'.variant n ssize < v.variant n ssize :=
    variant_lt_of_read (by omega) (by omega)
  have hrowOf : rowOf n v.i = v.rowPtr := by
    rw [hpos]
    exact rowOf_down h.two_le hrow
  obtain ⟨zzTile', hpush, hfilled'⟩ := hfilled.pushBack_char hrow hc hne hrowOf
  rw [Advances, turn_column_eq hplace hfull hsubscript hpush (by omega) (by omega)]
  split_ifs with hend hbottom
  · refine ⟨_, rfl, .last cols (.inl rfl) (by exact_mod_cast hend) ?_ hfilled', hread rfl⟩
    show cols + 1 ≤ v.i + 1
    omega
  · have hbottom' : v.rowPtr + 1 = n := by exact_mod_cast hbottom
    rw [hbottom'] at hfilled'
    refine ⟨_, rfl, .full q (cols + 1) rfl rfl ⟨rfl, ?_, rfl, ?_, ?_, hfilled'.wrap⟩, hread rfl⟩
    all_goals dsimp only
    all_goals omega
  · refine ⟨_, rfl, .down q cols (.inl hplace) ⟨hfull, hswitch, ?_, ?_, ?_, ?_, hfilled'⟩,
      hread rfl⟩
    all_goals dsimp only
    all_goals omega

/-- The turn that takes the flag back. Two rows go on downwards. -/
theorem turn_full (h : Fits s n ssize) (hplace : v.place = .switch) (hswitch : v.doSwitch = true)
    (hcolumn : v.Full s n ssize q cols) : Advances s n ssize v := by
  obtain ⟨hfull, hi, hrow, hpos, hcols, hfilled⟩ := hcolumn
  have htwo := h.two_le
  have hend : (v.i : ℤ) ≠ ssize := by omega
  have hturn : turn s n ssize v = some (.next { v with
      doSwitch := false
      colPtr := n - 2
      reachedFull := if (n : ℤ) - 2 = 0 then false else true
      place := .column }) := by
    rw [turn, hplace]
    simp only [if_neg hend, hswitch, hfull, if_true]
  refine ⟨_, hturn, ?_, variant_lt_of_weight rfl ?_⟩
  · by_cases hn : (n : ℤ) - 2 = 0
    · rw [if_pos hn]
      obtain rfl : n = 2 := by omega
      refine .down (q + 1) cols (.inl rfl) ⟨rfl, rfl, hi, ?_, ?_, ?_, hrow ▸ hfilled⟩
      all_goals dsimp only
      all_goals omega
    · rw [if_neg hn]
      exact .turned q cols (.inl rfl) rfl (by omega) rfl ⟨rfl, hi, hrow, hpos, hcols, hfilled⟩
  · simp only [Vars.weight, hplace, hswitch, if_true]
    split_ifs <;> omega

/-- The two turns between the flag and the way up. -/
theorem turn_turned (hplace : v.place = .column ∨ v.place = .switch) (hswitch : v.doSwitch = false)
    (hn : 2 < n) (hcol : v.colPtr = n - 2) (hcolumn : v.Full s n ssize q cols) :
    Advances s n ssize v := by
  obtain ⟨hfull, hi, hrow, hpos, hcols, hfilled⟩ := hcolumn
  rcases hplace with hplace | hplace
  · have hturn : turn s n ssize v = some (.next { v with place := .switch }) := by
      rw [turn, hplace]
      simp only [hfull, if_true]
    refine ⟨_, hturn, ?_, variant_lt_of_weight rfl ?_⟩
    · exact .turned q cols (.inr rfl) hswitch hn hcol ⟨hfull, hi, hrow, hpos, hcols, hfilled⟩
    · simp [Vars.weight, hplace, hfull, hswitch]
  · have hend : (v.i : ℤ) ≠ ssize := by omega
    have hturn : turn s n ssize v = some (.next { v with place := .diagonal }) := by
      rw [turn, hplace]
      simp only [if_neg hend, hswitch, Bool.false_eq_true, if_false]
    refine ⟨_, hturn, ?_, variant_lt_of_weight rfl ?_⟩
    · have hrow' : ¬n - 2 < v.rowPtr := by omega
      refine .up q cols (n - 2) rfl ⟨hfull, hswitch, hi, ?_, ?_, ?_, ?_, ?_, ?_, hrow ▸ hfilled⟩
      all_goals try simp only [if_neg hrow']
      all_goals omega
    · simp only [Vars.weight, hplace, hswitch, hcol, Bool.false_eq_true, if_false]
      omega

/-- The cell that is written on the way up: the next character in the row of the column, a space
in the other rows. -/
theorem exists_cell_up (h : Fits s n ssize) (hup : v.Up s n ssize q cols col) :
    ∃ c i zzTile', cell s v = some (c, i) ∧ pushBack v.zzTile v.rowPtr c = some zzTile' ∧
      i = v.i + (if v.rowPtr = col then 1 else 0) ∧
      Filled s n i cols (v.rowPtr + 1) zzTile' := by
  have hcol := hup.col_eq
  by_cases heq : v.rowPtr = col
  · obtain ⟨c, hsubscript, hc, hne⟩ := h.exists_char hup.more
    have hsize := h.size_lt
    have hi := hup.more
    have hrowOf : rowOf n v.i = v.rowPtr := by
      rw [hup.index, if_neg (by omega), Nat.add_zero, rowOf_up hup.col_pos hup.col_le, heq]
    obtain ⟨zzTile', hpush, hfilled'⟩ := hup.filled.pushBack_char hup.row_lt hc hne hrowOf
    refine ⟨c, v.i + 1, zzTile', ?_, hpush, ?_, hfilled'⟩
    · rw [cell, if_neg (by omega), hsubscript, increment_eq (by omega)]
      rfl
    · rw [if_pos heq]
  · obtain ⟨zzTile', hpush, hfilled'⟩ := hup.filled.pushBack_space hup.row_lt
    refine ⟨32, v.i, zzTile', ?_, hpush, ?_, hfilled'⟩
    · rw [cell, if_pos (by omega)]
    · rw [if_neg heq]
      rfl

/-- The index behind a cell on the way up. -/
theorem Vars.Up.index_next (hup : v.Up s n ssize q cols col)
    (hiEq : i = v.i + (if v.rowPtr = col then 1 else 0)) :
    i = q * (2 * n - 2) + (2 * n - 2 - col) + (if col < v.rowPtr + 1 then 1 else 0) ∧
      cols + (if col < v.rowPtr + 1 then 1 else 0) ≤ i ∧ v.i ≤ i ∧ i ≤ ssize := by
  have hi := hup.more
  have hpos := hup.index
  have hcols := hup.cols_le
  refine ⟨?_, ?_, by omega, ?_⟩
  · rw [hiEq, hpos]
    split_ifs <;> omega
  · rw [hiEq]
    split_ifs at hcols ⊢ <;> omega
  · rw [hiEq]
    split_ifs <;> omega

/-- A turn on the way up. -/
theorem turn_up (h : Fits s n ssize) (hplace : v.place = .diagonal)
    (hup : v.Up s n ssize q cols col) : Advances s n ssize v := by
  have hrows := h.rows_lt
  obtain ⟨c, i, zzTile', hcell, hpush, hiEq, hfilled'⟩ := exists_cell_up h hup
  obtain ⟨hpos', hcols', hge, hle⟩ := hup.index_next hiEq
  obtain ⟨hfull, hswitch, hi, hrow, hcol, hcolPos, hcolLe, -, -, -⟩ := hup
  have hweight : v.weight n = col + 1 := by
    simp only [Vars.weight, hplace, hcol, Int.toNat_natCast]
  rw [Advances, turn_diagonal_eq hplace hfull hcell hpush (by omega)]
  split_ifs with hend hbottom hlast
  · have hread : v.i < i := by omega
    refine ⟨_, rfl, .last cols (.inr rfl) (by exact_mod_cast hend) ?_ hfilled', ?_⟩
    · show cols + 1 ≤ i
      split_ifs at hiEq hcols' <;> omega
    · exact variant_lt_of_read hread hle
  · have hbottom' : v.rowPtr + 1 = n := by exact_mod_cast hbottom
    rw [if_pos (by omega)] at hpos' hcols'
    rw [hbottom'] at hfilled'
    refine ⟨_, rfl, .down (q + 1) (cols + 1) (.inr rfl)
      ⟨rfl, hswitch, ?_, ?_, ?_, hcols', hfilled'.wrap⟩, ?_⟩
    · show i < ssize
      omega
    · show 0 < n
      omega
    · show i = (q + 1) * (2 * n - 2) + 0
      have hsucc : (q + 1) * (2 * n - 2) = q * (2 * n - 2) + (2 * n - 2) := Nat.succ_mul _ _
      omega
    · rw [variant_lt_iff, hweight]
      simp only [Vars.weight]
      omega
  · have hbottom' : v.rowPtr + 1 = n := by exact_mod_cast hbottom
    rw [if_pos (by omega)] at hpos' hcols'
    rw [hbottom'] at hfilled'
    refine ⟨_, rfl, .up q (cols + 1) (col - 1) hplace
      ⟨hfull, hswitch, ?_, ?_, ?_, ?_, ?_, ?_, hcols', hfilled'.wrap⟩, ?_⟩
    case refine_7 =>
      rw [variant_lt_iff, hweight]
      simp only [Vars.weight, hplace]
      omega
    all_goals try simp only [Nat.not_lt_zero, if_false]
    all_goals omega
  · refine ⟨_, rfl, .up q cols col hplace
      ⟨hfull, hswitch, ?_, ?_, hcol, hcolPos, hcolLe, hpos', hcols', hfilled'⟩, ?_⟩
    · show i < ssize
      omega
    · show v.rowPtr + 1 < n
      omega
    · rw [variant_lt_iff, hweight]
      simp only [Vars.weight, hplace, hcol, Int.toNat_natCast, true_and]
      split_ifs at hiEq <;> omega

/-- The turns behind the loops: the tile is done, or the next column is filled downwards. -/
theorem turn_last (h : Fits s n ssize) (hplace : v.place = .switch ∨ v.place = .check)
    (hi : v.i = ssize) (hcols : cols + 1 ≤ v.i) (hfilled : Filled s n v.i cols v.rowPtr v.zzTile) :
    ∃ zzTile, turn s n ssize v = some (.leave zzTile) ∧ ans zzTile = zigzag n (s.take ssize) := by
  have hsize := h.size_lt
  refine ⟨v.zzTile, ?_, ?_⟩
  · rw [turn]
    rcases hplace with hplace | hplace <;> simp only [hplace, hi, if_true]
  · rw [hfilled.ans_eq h.two_le (by omega), hi]

theorem turn_check (hplace : v.place = .check) (hdown : v.Down s n ssize q cols) :
    Advances s n ssize v := by
  obtain ⟨hfull, hswitch, hi, hrow, hpos, hcols, hfilled⟩ := hdown
  have hend : (v.i : ℤ) ≠ ssize := by omega
  have hturn : turn s n ssize v = some (.next { v with place := .column }) := by
    rw [turn, hplace]
    simp only [if_neg hend]
  refine ⟨_, hturn, ?_, variant_lt_of_weight rfl ?_⟩
  · exact .down q cols (.inl rfl) ⟨hfull, hswitch, hi, hrow, hpos, hcols, hfilled⟩
  · simp [Vars.weight, hplace, hfull]

/-- The loops end with a tile of the characters that are read. -/
theorem exists_returns_of_fits (h : Fits s n ssize) (hpos : 0 < ssize) (colPtr : ℤ) :
    ∃ zzTile, Returns (turn s n ssize) (start n colPtr) zzTile ∧
      ans zzTile = zigzag n (s.take ssize) := by
  have htwo := h.two_le
  apply exists_returns (Vars.Inv s n ssize) _ (Vars.variant n ssize)
  · intro v hinv
    cases hinv with
    | down q cols hplace hdown =>
      rcases hplace with hplace | hplace
      · exact .inl (turn_down h hplace hdown)
      · exact .inl (turn_check hplace hdown)
    | full q cols hplace hswitch hcolumn => exact .inl (turn_full h hplace hswitch hcolumn)
    | turned q cols hplace hswitch hn hcol hcolumn =>
      exact .inl (turn_turned hplace hswitch hn hcol hcolumn)
    | up q cols col hplace hup => exact .inl (turn_up h hplace hup)
    | last cols hplace hi hcols hfilled => exact .inr (turn_last h hplace hi hcols hfilled)
  · refine .down 0 0 (.inl rfl) ⟨rfl, rfl, hpos, ?_, ?_, le_rfl, filled_start s n⟩
    · show 0 < n
      omega
    · show 0 = 0 * (2 * n - 2) + 0
      omega

/-- The index of a cell on the way up. -/
theorem index_of_cell (hcell : cell s v = some (c, i)) : v.i ≤ i := by
  rw [cell] at hcell
  split_ifs at hcell
  · cases hcell
    exact le_rfl
  · simp only [Option.bind_eq_bind, Option.bind_eq_some_iff] at hcell
    obtain ⟨_, -, i', hi, ⟨⟩⟩ := hcell
    have hsucc := increment_eq_some hi
    omega

/-- The index never goes back, and the loop on the way down moves it. The loops are left behind
one of them only, and only at the size. -/
theorem index_of_turn {size : ℤ} {t : Turn Vars (List (List UInt8))}
    (hturn : turn s numRows size v = some t) : match t with
    | .next v' => v.i ≤ v'.i ∧ (v.place = .column → v.reachedFull = false → v.i < v'.i)
    | .leave _ => v.i = size ∧ v.place ≠ .column := by
  rw [turn] at hturn
  cases hplace : v.place with
  | column =>
    cases hfull : v.reachedFull with
    | true =>
      simp only [hplace, hfull, if_true] at hturn
      cases hturn
      exact ⟨le_rfl, nofun⟩
    | false =>
      simp only [hplace, hfull, Bool.false_eq_true, if_false, Option.bind_eq_bind,
        Option.bind_eq_some_iff] at hturn
      obtain ⟨_, -, i, hi, _, -, _, -, hturn⟩ := hturn
      have hlt : v.i < i := by
        rw [increment_eq_some hi]
        exact Nat.lt_succ_self _
      split_ifs at hturn <;> cases hturn <;> exact ⟨hlt.le, fun _ _ => hlt⟩
  | switch =>
    simp only [hplace] at hturn
    split_ifs at hturn with hend <;> cases hturn
    · exact ⟨hend, nofun⟩
    all_goals exact ⟨le_rfl, nofun⟩
  | diagonal =>
    cases hfull : v.reachedFull with
    | true =>
      simp only [hplace, hfull, if_true, Option.bind_eq_bind, Option.bind_eq_some_iff] at hturn
      obtain ⟨⟨c, i⟩, hcell, _, -, _, -, hturn⟩ := hturn
      have hle := index_of_cell hcell
      split_ifs at hturn <;> cases hturn <;> exact ⟨hle, nofun⟩
    | false =>
      simp only [hplace, hfull, Bool.false_eq_true, if_false] at hturn
      cases hturn
      exact ⟨le_rfl, nofun⟩
  | check =>
    simp only [hplace] at hturn
    split_ifs at hturn with hend <;> cases hturn
    · exact ⟨hend, nofun⟩
    · exact ⟨le_rfl, nofun⟩

/-- A counter that has left zero never meets a size that is not positive. -/
theorem not_returns_of_size_le {size : ℤ} (hsize : size ≤ 0) (colPtr : ℤ) :
    ¬Returns (turn s numRows size) (start numRows colPtr) zzTile := by
  apply Returns.post (fun v => 0 < v.i ∨ v.place = .column ∧ v.reachedFull = false)
    (fun _ => False)
  · intro v v' hinv hturn
    obtain ⟨hle, hlt⟩ := index_of_turn hturn
    left
    rcases hinv with hpos | ⟨hplace, hfull⟩
    · omega
    · exact Nat.zero_lt_of_lt (hlt hplace hfull)
  · intro v zzTile hinv hturn
    obtain ⟨hi, hplace⟩ := index_of_turn hturn
    rcases hinv with hpos | ⟨hcolumn, -⟩
    · omega
    · exact hplace hcolumn
  · exact .inr ⟨rfl, rfl⟩

/-- With more than one row the function returns what the tile gives. -/
theorem exists_convert_iff {r : List UInt8} (hone : numRows ≠ 1) :
    (∃ limit, convert s numRows colPtr limit = some (some r)) ↔
      ∃ zzTile, Returns (turn s numRows (size s)) (start numRows colPtr) zzTile ∧
        ans zzTile = r := by
  simp only [convert, if_neg hone, Option.map_eq_some_iff, Returns]
  constructor
  · rintro ⟨limit, _, hrun, zzTile, rfl, hans⟩
    exact ⟨zzTile, ⟨limit, hrun⟩, hans⟩
  · rintro ⟨zzTile, ⟨limit, hrun⟩, hans⟩
    exact ⟨limit, _, hrun, zzTile, rfl, hans⟩

/-- With a size that does not fit an `int` less than the string is read. -/
theorem length_ans_lt (hn : 2 ≤ n) (hint : n < 2 ^ 31) (hspace : 32 ∉ s)
    (hlarge : 2 ^ 31 ≤ s.length) (hreturns : Returns (turn s n (size s)) (start n colPtr) zzTile) :
    (ans zzTile).length < s.length := by
  rcases le_or_gt (size s) 0 with hsize | hsize
  · exact (not_returns_of_size_le hsize colPtr hreturns).elim
  · obtain ⟨ssize, hssize⟩ := Int.eq_ofNat_of_zero_le hsize.le
    have hlt := size_lt_length hlarge
    have hint' := size_lt s
    rw [hssize] at hreturns hsize hlt hint'
    have hfits : Fits s n ssize := ⟨hn, hint, hspace, by omega, by omega⟩
    obtain ⟨zzTile', hreturns', hans'⟩ := exists_returns_of_fits hfits (by omega) colPtr
    rw [hreturns.unique hreturns', hans', (perm_zigzag (by omega) _).length_eq, List.length_take]
    omega

/-- With more than one row and a size that does not fit an `int` the function does not return what
it should. -/
theorem not_converts_of_length_ge (hn : 2 ≤ n) (hint : n < 2 ^ 31) (hspace : 32 ∉ s)
    (hlarge : 2 ^ 31 ≤ s.length) : ¬Converts s n := by
  intro h
  obtain ⟨zzTile, hreturns, hans⟩ := (exists_convert_iff (by omega)).mp (h 0)
  have hlt := length_ans_lt hn hint hspace hlarge hreturns
  rw [hans, Int.toNat_natCast, (perm_zigzag (by omega) s).length_eq] at hlt
  exact hlt.false

/-- With more than one row and a size that fits an `int` the function returns what it should. -/
theorem converts_of_length_lt (hne : s ≠ []) (hn : 2 ≤ n) (hint : n < 2 ^ 31) (hspace : 32 ∉ s)
    (hlength : s.length < 2 ^ 31) : Converts s n := by
  intro colPtr
  rw [exists_convert_iff (by omega), size_eq hlength]
  have hfits : Fits s n s.length := ⟨hn, hint, hspace, le_rfl, hlength⟩
  obtain ⟨zzTile, hreturns, hans⟩ :=
    exists_returns_of_fits hfits (List.length_pos_of_ne_nil hne) colPtr
  rw [List.take_length] at hans
  exact ⟨zzTile, hreturns, hans⟩

/-- The function returns the characters row by row exactly if there is one row only or the size of
the string fits an `int`. -/
theorem converts_iff {numRows : ℤ} (hne : s ≠ []) (hspace : 32 ∉ s) (hrows : 1 ≤ numRows)
    (hint : numRows < 2 ^ 31) : Converts s numRows ↔ numRows = 1 ∨ s.length < 2 ^ 31 := by
  rcases eq_or_ne numRows 1 with rfl | hone
  · refine iff_of_true ?_ (.inl rfl)
    exact fun colPtr => ⟨0, rfl⟩
  obtain ⟨n, rfl⟩ := Int.eq_ofNat_of_zero_le (by omega : 0 ≤ numRows)
  have hn : 2 ≤ n := by omega
  rw [or_iff_right hone]
  constructor
  · intro h
    by_contra hlarge
    exact not_converts_of_length_ge hn (by omega) hspace (by omega) h
  · exact converts_of_length_lt hne hn (by omega) hspace

/-- A string of fourteen characters in three rows. -/
theorem converts_paypalishiring :
    Converts [80, 65, 89, 80, 65, 76, 73, 83, 72, 73, 82, 73, 78, 71] 3 :=
  (converts_iff (by decide) (by decide) (by decide) (by decide)).mpr (.inr (by decide))

/-- Of a string with `2 ^ 32 + 1` characters only the first one is read: the converted size is
one. -/
theorem not_converts_replicate : ¬Converts (List.replicate (2 ^ 32 + 1) 97) 2 := by
  refine not_converts_of_length_ge le_rfl (by decide) ?_ ?_
  · intro hspace
    exact absurd (List.eq_of_mem_replicate hspace) (by decide)
  · rw [List.length_replicate]
    omega

end Hack.Zigzag
