import Hack.BlockHeap
import Hack.Refinement

/-!
# Growing vectors, and the vector of integers

This file embeds `vector/int.c`, of which `grep/grep.c` has a copy, with what the vector of strings
shares with it. A vector is an array on the heap and a count that the caller keeps. A push makes
the array one cell longer, an erase shifts the elements behind the erased one and makes it one
cell shorter, and the last erase frees it. What they do is specified on lists.
-/

namespace Hack.CVector

open BlockHeap

/-! ### The calls and their specification -/

/-- The calls on a vector. -/
inductive Op (El : Type*)
  | push (el : El)
  | erase (index : ℤ)

/-- What a call does with the list of the elements, and the code that it returns. -/
def Op.apply {El : Type*} (l : List El) : Op El → List El × ℤ
  | .push el => (l ++ [el], 0)
  | .erase index =>
    if l.length = 0 then (l, -1)
    else if index ≥ l.length ∨ index < 0 then (l, -2)
    else (l.eraseIdx index.toNat, if l.length = 1 then 1 else 0)

/-- Lists under any calls, with the codes returned so far. -/
def lists (El : Type*) : Machine (List El × List ℤ) (Op El) where
  start s := s = ([], [])
  next s op := some ((op.apply s.1).1, s.2 ++ [(op.apply s.1).2])

/-- What the caller of a vector holds: the memory, the pointer to the array, and the count. -/
structure Held (Mem : Type*) where
  mem : Mem
  vec : ℕ
  count : ℕ

/-- The two functions of a vector. They take the count, the pointer, and the element or the index,
and return the memory, the pointer, and a code. -/
structure Functions (Mem El : Type*) where
  pushBack : ℕ → ℕ → El → Mem → Option (Mem × ℕ × ℤ)
  erase : ℕ → ℕ → ℤ → Mem → Option (Mem × ℕ × ℤ)

variable {Mem El : Type*} {functions : Functions Mem El}

/-- A call with the code it returns. The caller changes the count by one unless the code is
negative. -/
def Functions.call (functions : Functions Mem El) (s : Held Mem) : Op El → Option (Held Mem × ℤ)
  | .push el =>
    (functions.pushBack s.count s.vec el s.mem).map fun (mem, vec, code) =>
      (⟨mem, vec, if code < 0 then s.count else s.count + 1⟩, code)
  | .erase index =>
    (functions.erase s.count s.vec index s.mem).map fun (mem, vec, code) =>
      (⟨mem, vec, if code < 0 then s.count else s.count - 1⟩, code)

/-- A vector under any calls, with the codes returned so far. -/
def Functions.vector (functions : Functions Mem El) : Machine (Held Mem × List ℤ) (Op El) where
  start s := s.1.count = 0 ∧ s.2 = []
  next s op := (functions.call s.1 op).map fun (held, code) => (held, s.2 ++ [code])

/-- From count zero, every sequence of calls goes through without a fault, returns the codes of the
specification, and ends with its elements, exactly if a condition holds at each of the calls. -/
def Functions.RefinesIff (functions : Functions Mem El) (Rep : Held Mem → List El → Prop)
    (condition : List El → Op El → Prop) : Prop :=
  ∀ s : Held Mem, s.count = 0 → ∀ ops, ∃ l codes, (lists El).run ([], []) ops = some (l, codes) ∧
    ((∃ s', functions.vector.run (s, []) ops = some (s', codes) ∧ Rep s' l) ↔
      (lists El).Along (fun t op => condition t.1 op) ([], []) ops)

/-- An erase of an empty vector or with an index out of range returns a negative code and changes
nothing. -/
def Functions.RefusesOutside (functions : Functions Mem El) : Prop :=
  ∀ (s : Held Mem) (index : ℤ), s.count = 0 ∨ index ≥ s.count ∨ index < 0 →
    ∃ code < 0, functions.call s (.erase index) = some (s, code)

/-- Lists take any calls. -/
theorem exists_run_lists (ops : List (Op El)) (t : List El × List ℤ) :
    ∃ l codes, (lists El).run t ops = some (l, codes) := by
  induction ops generalizing t with
  | nil => exact ⟨t.1, t.2, rfl⟩
  | cons op ops ih => exact ih _

/-- Where each call does what the specification says exactly under a condition on the elements,
and faults otherwise, so do all sequences of calls. -/
theorem Functions.refinesIff {Rep : Held Mem → List El → Prop} {condition : List El → Op El → Prop}
    (hempty : ∀ s, s.count = 0 → Rep s [])
    (hstep : ∀ s l op, Rep s l → condition l op →
      ∃ s', functions.call s op = some (s', (op.apply l).2) ∧ Rep s' (op.apply l).1)
    (hfault : ∀ s l op, Rep s l → ¬condition l op → functions.call s op = none) :
    functions.RefinesIff Rep condition := by
  intro s hcount ops
  obtain ⟨l, codes, hrun⟩ := exists_run_lists ops (([], []) : List El × List ℤ)
  refine ⟨l, codes, hrun, ?_⟩
  have hmachine := @Machine.exists_run_iff_along _ _ _ functions.vector (lists El)
    (fun s t => Rep s.1 t.1 ∧ s.2 = t.2) (fun t op => condition t.1 op) ?_ ?_
    (s, []) ([], []) (l, codes) ops ⟨hempty s hcount, rfl⟩ hrun
  · rw [← hmachine]
    constructor
    · rintro ⟨s', hs', hrep'⟩
      exact ⟨(s', codes), hs', hrep', rfl⟩
    · rintro ⟨⟨s', codes'⟩, hs', hrep', rfl⟩
      exact ⟨s', hs', hrep'⟩
  · rintro ⟨s, codes⟩ ⟨l, codes'⟩ t' op ⟨hrep, rfl⟩ hcond hnext
    obtain ⟨s', hs', hrep'⟩ := hstep s l op hrep hcond
    cases hnext
    exact ⟨(s', codes ++ [(op.apply l).2]), by simp [Functions.vector, hs'], hrep', rfl⟩
  · rintro ⟨s, codes⟩ ⟨l, codes'⟩ op ⟨hrep, -⟩ hcond
    simp [Functions.vector, hfault s l op hrep hcond]

/-! ### The array -/

variable {α : Type*} (junk : ℕ → ℕ → α) (width : ℕ)

/-- The array with one more cell. The new count is an `int`. -/
def grow (count vec : ℕ) (h : BlockHeap α) : Option (ℕ × BlockHeap α) :=
  let newCount := count + 1
  if newCount < 2 ^ 31 then
    if count = 0 then h.malloc junk width newCount else h.realloc junk width newCount vec
  else none

/-- The end of an erase: the array is freed with the last element, and otherwise gets the new
count. -/
def shrink (newCount vec : ℕ) (h : BlockHeap α) : Option (BlockHeap α × ℕ × ℤ) :=
  if newCount = 0 then (h.free vec).map fun h => (h, vec, 1)
  else (h.realloc junk width newCount vec).map fun (newVec, h) => (h, newVec, 0)

/-- The checks before an erase. -/
def checked (count vec : ℕ) (index : ℤ) (mem : Mem) (body : Option (Mem × ℕ × ℤ)) :
    Option (Mem × ℕ × ℤ) :=
  if (count : ℤ) - 1 < 0 then some (mem, vec, -1)
  else if index ≥ count ∨ index < 0 then some (mem, vec, -2)
  else body

/-- An element is copied to the cell before its own. -/
def shift (vec : ℕ) (h : BlockHeap α) (i : ℕ) : Option (BlockHeap α) :=
  (h.load vec i).bind fun el => h.store vec (i - 1) el

/-- `VECTOR_PushBackInt`. -/
def pushBackInt (junk : ℕ → ℕ → Int32) (count vec : ℕ) (newEl : Int32) (h : BlockHeap Int32) :
    Option (BlockHeap Int32 × ℕ × ℤ) :=
  (grow junk 4 count vec h).bind fun (vecTmp, h) =>
    (h.store vecTmp count newEl).map fun h => (h, vecTmp, 0)

/-- The loop of `VECTOR_EraseInt`. -/
def eraseIntAt (vec : ℕ) (index : ℤ) (h : BlockHeap Int32) (i : ℕ) : Option (BlockHeap Int32) :=
  if i ≤ index then some h else shift vec h i

/-- `VECTOR_EraseInt`. -/
def eraseInt (junk : ℕ → ℕ → Int32) (count vec : ℕ) (index : ℤ) (h : BlockHeap Int32) :
    Option (BlockHeap Int32 × ℕ × ℤ) :=
  checked count vec index h <|
    ((List.range count).foldlM (eraseIntAt vec index) h).bind fun h =>
      shrink junk 4 (count - 1) vec h

/-- The vector of integers. -/
def ints (junk : ℕ → ℕ → Int32) : Functions (BlockHeap Int32) Int32 :=
  ⟨pushBackInt junk, eraseInt junk⟩

variable {junk width} {h h' : BlockHeap α} {vec index : ℕ} {l : List α} {k count : ℕ}
  {s : Held (BlockHeap Int32)} {mem : Mem}

/-- The array holds exactly the elements. There is none without elements. -/
def Stored (h : BlockHeap α) (vec : ℕ) (l : List α) : Prop := l ≠ [] → h.block vec = some l

/-- The elements after the first rounds of an erase: those behind the erased one are one cell
further to the front as far as they were reached. -/
def shifted (index k : ℕ) (l : List α) : List α :=
  (l.eraseIdx index).take (k - 1) ++ l.drop (k - 1)

/-- Where the elements are after the first rounds. -/
theorem getElem?_shifted (index : ℕ) (hk : k ≤ l.length) (i : ℕ) :
    (shifted index k l)[i]? = if index ≤ i ∧ i + 1 < k then l[i + 1]? else l[i]? := by
  have hlength : ((l.eraseIdx index).take (k - 1)).length = k - 1 := by
    rw [List.length_take, List.length_eraseIdx]
    split_ifs <;> omega
  rw [shifted]
  rcases Nat.lt_or_ge i (k - 1) with hi | hi
  · rw [List.getElem?_append_left (by omega), List.getElem?_take_of_lt hi, List.getElem?_eraseIdx]
    split_ifs <;> first | rfl | omega
  · rw [List.getElem?_append_right (by omega), hlength, List.getElem?_drop, if_neg (by omega),
      Nat.add_sub_cancel' hi]

/-- The erase moves no element out of the array. -/
theorem length_shifted (index : ℕ) (hk : k ≤ l.length) : (shifted index k l).length = l.length := by
  rw [shifted, List.length_append, List.length_take, List.length_eraseIdx, List.length_drop]
  split_ifs <;> omega

/-- Up to the erased element, nothing has moved. -/
theorem shifted_of_le (hindex : k ≤ index + 1) (hk : k ≤ l.length) : shifted index k l = l := by
  refine List.ext_getElem? fun i => ?_
  rw [getElem?_shifted index hk, if_neg (by omega)]

/-- One round behind the erased element. -/
theorem set_shifted (hindex : index < k) (hk : k < l.length) :
    (shifted index k l).set (k - 1) l[k] = shifted index (k + 1) l := by
  have hle : k ≤ l.length := Nat.le_of_lt hk
  refine List.ext_getElem? fun i => ?_
  rw [List.getElem?_set, getElem?_shifted index hle, getElem?_shifted index hk,
    length_shifted index hle]
  by_cases hi : k - 1 = i
  · have hik : i + 1 = k := by omega
    rw [if_pos hi, if_pos (by omega), if_pos (by omega), hik, List.getElem?_eq_getElem hk]
  · have hreached : index ≤ i ∧ i + 1 < k + 1 ↔ index ≤ i ∧ i + 1 < k := by omega
    rw [if_neg hi]
    simp only [hreached]

/-- After all rounds the elements are those of the erased list, and the last one again. -/
theorem take_shifted (hindex : index < l.length) :
    (shifted index l.length l).take (l.length - 1) = l.eraseIdx index := by
  have hlength : (l.eraseIdx index).length = l.length - 1 := List.length_eraseIdx_of_lt hindex
  rw [shifted, List.take_left']
  · rw [List.take_of_length_le (Nat.le_of_eq hlength)]
  · rw [List.length_take, hlength, Nat.min_self]

/-- Before the last round, the last element is in its own cell. -/
theorem getElem?_shifted_last (index : ℕ) (last : α) :
    (shifted index l.length (l ++ [last]))[l.length]? = some last := by
  have hle : l.length ≤ (l ++ [last]).length := by simp
  rw [getElem?_shifted index hle, if_neg (by omega), List.getElem?_concat_length]

/-- After all rounds but the last, which stores another element than its own. -/
theorem take_set_shifted {last : α} (hindex : index < l.length) (el : α) :
    ((shifted index l.length (l ++ [last])).set (l.length - 1) el).take l.length =
      l.eraseIdx index ++ [el] := by
  have hlength : (l.eraseIdx index).length = l.length - 1 := List.length_eraseIdx_of_lt hindex
  have htake : ((l ++ [last]).eraseIdx index).take (l.length - 1) = l.eraseIdx index := by
    rw [List.eraseIdx_append_of_lt_length hindex, List.take_left' hlength]
  have hdrop : (l ++ [last]).drop (l.length - 1) = [l[l.length - 1], last] := by
    rw [List.drop_append_of_le_length (Nat.sub_le _ _), List.drop_eq_getElem_cons (by omega),
      List.drop_eq_nil_of_le (by omega)]
    rfl
  have hone : l.length - (l.length - 1) = 1 := by omega
  rw [shifted, htake, hdrop, List.set_append_right _ _ (Nat.le_of_eq hlength), hlength,
    Nat.sub_self, List.set_cons_zero, List.take_append, hlength, hone,
    List.take_of_length_le (by omega)]
  rfl

/-- One round of an erase in the array. -/
theorem shift_eq (hblock : h.block vec = some (shifted index k l)) (hindex : index < k)
    (hk : k < l.length) : shift vec h k = some (h.put vec (some (shifted index (k + 1) l))) := by
  have hle : k ≤ l.length := Nat.le_of_lt hk
  have hload : h.load vec k = some l[k] := by
    rw [load_eq hblock, getElem?_shifted index hle, if_neg (by omega), List.getElem?_eq_getElem hk]
  have hcell : k - 1 < (shifted index k l).length := by
    rw [length_shifted index hle]
    omega
  rw [shift, hload, Option.bind_some, store_eq hblock hcell, set_shifted hindex hk]

/-- Arrays with an `int` for their count are not too large. -/
theorem mul_le_ptrdiffMax (hcount : count < 2 ^ 31) (hwidth : width ≤ 8) :
    count * width ≤ ptrdiffMax := by
  have hmul : count * width ≤ 2 ^ 31 * 8 := Nat.mul_le_mul (Nat.le_of_lt hcount) hwidth
  exact Nat.le_trans hmul (by decide)

/-- The longer array holds the elements and one more cell. -/
theorem grow_eq (hstored : Stored h vec l) (hcount : l.length + 1 < 2 ^ 31) (hwidth : width ≤ 8) :
    ∃ vecTmp h' cell, grow junk width l.length vec h = some (vecTmp, h') ∧
      h'.block vecTmp = some (l ++ [cell]) := by
  have hsize : (l.length + 1) * width ≤ ptrdiffMax := mul_le_ptrdiffMax hcount hwidth
  rw [grow, if_pos hcount]
  cases l with
  | nil => exact ⟨_, _, _, if_pos hsize, block_alloc_self _ _⟩
  | cons el l =>
    have hblock := hstored (List.cons_ne_nil el l)
    have htake : (el :: l).take ((el :: l).length + 1) = el :: l :=
      List.take_of_length_le (Nat.le_succ _)
    have hone : (el :: l).length + 1 - (el :: l).length = 1 := by omega
    have hcons : (el :: l).length ≠ 0 := Nat.succ_ne_zero _
    rw [if_neg hcons, realloc, if_pos hsize, move_eq hblock, htake, hone]
    exact ⟨_, _, _, rfl, block_alloc_self _ _⟩

/-- The new cell gets the new element. -/
theorem store_new {cell : α} (hblock : h.block vec = some (l ++ [cell])) (el : α) :
    h.store vec l.length el = some (h.put vec (some (l ++ [el]))) := by
  have hcell : l.length < (l ++ [cell]).length := by simp
  rw [store_eq hblock hcell, List.set_append_right _ _ (Nat.le_refl _), Nat.sub_self,
    List.set_cons_zero]

/-- The shorter array holds the first elements. -/
theorem shrink_eq {cells : List α} {n : ℕ} (hblock : h.block vec = some cells)
    (hlength : cells.length = n + 1) (hcount : n < 2 ^ 31) (hwidth : width ≤ 8) :
    ∃ h' vec', shrink junk width n vec h = some (h', vec', if n = 0 then 1 else 0) ∧
      Stored h' vec' (cells.take n) := by
  rw [shrink]
  split_ifs with hzero
  · refine ⟨h.put vec none, vec, ?_, fun hne => ?_⟩
    · rw [free_eq hblock, Option.map_some]
    · rw [hzero, List.take_zero] at hne
      exact absurd rfl hne
  · have hsize : n * width ≤ ptrdiffMax := mul_le_ptrdiffMax hcount hwidth
    have hnone : n - cells.length = 0 := by omega
    rw [realloc, if_pos hsize, move_eq hblock, hnone, List.range_zero, List.map_nil,
      List.append_nil]
    exact ⟨_, _, rfl, fun _ => block_alloc_self _ _⟩

/-! ### The vector of integers -/

/-- A vector of integers holds a list: the array has its elements, and the caller its length. -/
structure HoldsInts (s : Held (BlockHeap Int32)) (l : List Int32) : Prop where
  count_eq : s.count = l.length
  count_lt : l.length < 2 ^ 31
  stored : Stored s.mem s.vec l

/-- A push leaves the count an `int`. -/
def FitsInt (l : List Int32) : Op Int32 → Prop
  | .push _ => l.length + 1 < 2 ^ 31
  | .erase _ => True

/-- The first rounds of an erase. -/
theorem foldlM_eraseIntAt {h : BlockHeap Int32} {l : List Int32} (hblock : h.block vec = some l)
    (index : ℕ) (hk : k ≤ l.length) :
    ∃ h', (List.range k).foldlM (eraseIntAt vec index) h = some h' ∧
      h'.block vec = some (shifted index k l) := by
  induction k with
  | zero => exact ⟨h, rfl, by rw [hblock, shifted_of_le (Nat.zero_le _) hk]⟩
  | succ k ih =>
    obtain ⟨h', hfold, hblock'⟩ := ih (Nat.le_of_succ_le hk)
    rw [List.range_succ, List.foldlM_append, hfold]
    simp only [Option.bind_eq_bind, Option.bind_some, List.foldlM_cons, List.foldlM_nil]
    rcases Nat.lt_or_ge index k with hindex | hindex
    · refine ⟨_, ?_, block_put_self hblock' _⟩
      rw [eraseIntAt, if_neg (by omega), shift_eq hblock' hindex hk]
      rfl
    · refine ⟨h', ?_, ?_⟩
      · rw [eraseIntAt, if_pos (by omega)]
        rfl
      · rw [hblock', shifted_of_le (by omega) (by omega), shifted_of_le (by omega) hk]

/-- A push that fits appends. -/
theorem call_push_int {l : List Int32} {junk : ℕ → ℕ → Int32} (hholds : HoldsInts s l)
    (newEl : Int32) (hfits : l.length + 1 < 2 ^ 31) :
    ∃ s', (ints junk).call s (.push newEl) = some (s', 0) ∧ HoldsInts s' (l ++ [newEl]) := by
  obtain ⟨vecTmp, h', cell, hgrow, hblock⟩ : ∃ vecTmp h' cell,
      grow junk 4 l.length s.vec s.mem = some (vecTmp, h') ∧
        h'.block vecTmp = some (l ++ [cell]) := grow_eq hholds.stored hfits (by decide)
  have hstore := store_new hblock newEl
  refine ⟨⟨h'.put vecTmp (some (l ++ [newEl])), vecTmp, l.length + 1⟩, ?_, ?_, ?_, fun _ => ?_⟩
  · simp [Functions.call, ints, pushBackInt, hholds.count_eq, hgrow, hstore]
  · simp
  · simpa using hfits
  · exact block_put_self hblock _

/-- An index is one of an element, or outside of the vector. -/
theorem index_cases (index : ℤ) (n : ℕ) : (index ≥ n ∨ index < 0) ∨ ∃ i < n, index = (i : ℤ) := by
  rcases Int.lt_or_le index 0 with hneg | hnonneg
  · exact .inl (.inr hneg)
  · obtain ⟨i, rfl⟩ := Int.eq_ofNat_of_zero_le hnonneg
    rcases Nat.lt_or_ge i n with hlt | hge
    · exact .inr ⟨i, hlt, rfl⟩
    · exact .inl (.inl (Int.ofNat_le.mpr hge))

/-- What the specification says of an erase inside of the vector. -/
theorem apply_erase {l : List El} {i : ℕ} (hi : i < l.length) :
    (Op.erase (i : ℤ)).apply l = (l.eraseIdx i, if l.length - 1 = 0 then 1 else 0) := by
  have hrange : ¬((i : ℤ) ≥ l.length ∨ (i : ℤ) < 0) := by omega
  have hone : l.length = 1 ↔ l.length - 1 = 0 := by omega
  simp only [Op.apply, show ¬l.length = 0 by omega, hrange, if_false, Int.toNat_natCast, hone]

/-- The code of an erase outside of the vector. -/
def outCode (count : ℕ) : ℤ := if count = 0 then -1 else -2

theorem outCode_neg (count : ℕ) : outCode count < 0 := by
  unfold outCode
  split_ifs <;> decide

/-- What the specification says of an erase outside of the vector. -/
theorem apply_erase_out {l : List El} {index : ℤ} (hout : index ≥ l.length ∨ index < 0) :
    (Op.erase index).apply l = (l, outCode l.length) := by
  simp only [Op.apply, hout, if_true, outCode]
  split_ifs <;> rfl

/-- The checks outside of the vector. -/
theorem checked_out {vec : ℕ} {index : ℤ} (body : Option (Mem × ℕ × ℤ))
    (hout : index ≥ count ∨ index < 0) :
    checked count vec index mem body = some (mem, vec, outCode count) := by
  have hzero : (count : ℤ) - 1 < 0 ↔ count = 0 := by omega
  simp only [checked, hzero, hout, if_true, outCode]
  split_ifs <;> rfl

/-- The checks inside of the vector. -/
theorem checked_eq {vec i : ℕ} (body : Option (Mem × ℕ × ℤ)) (hi : i < count) :
    checked count vec i mem body = body := by
  rw [checked, if_neg (by omega), if_neg (by omega)]

/-- An erase outside of the vector changes nothing. -/
theorem Functions.call_erase_out {s : Held Mem} {index : ℤ} {body : Option (Mem × ℕ × ℤ)}
    (herase : functions.erase s.count s.vec index s.mem = checked s.count s.vec index s.mem body)
    (hout : index ≥ s.count ∨ index < 0) :
    functions.call s (.erase index) = some (s, outCode s.count) := by
  simp only [Functions.call, herase, checked_out body hout, Option.map_some,
    if_pos (outCode_neg s.count)]

/-- An erase that begins with the checks refuses what is outside of the vector. -/
theorem Functions.refusesOutside
    (herase : ∀ (s : Held Mem) (index : ℤ), ∃ body, functions.erase s.count s.vec index s.mem =
      checked s.count s.vec index s.mem body) :
    functions.RefusesOutside := by
  intro s index hindex
  have hout : index ≥ s.count ∨ index < 0 := by omega
  obtain ⟨body, hbody⟩ := herase s index
  exact ⟨outCode s.count, outCode_neg s.count, Functions.call_erase_out hbody hout⟩

/-- `VECTOR_EraseInt` inside of the vector. -/
theorem eraseInt_eq {junk : ℕ → ℕ → Int32} {vec i : ℕ} {h : BlockHeap Int32} {l : List Int32}
    (hblock : h.block vec = some l) (hlt : l.length < 2 ^ 31) (hi : i < l.length) :
    ∃ h' vec', eraseInt junk l.length vec i h =
        some (h', vec', if l.length - 1 = 0 then 1 else 0) ∧ Stored h' vec' (l.eraseIdx i) := by
  obtain ⟨h₁, hfold, hblock₁⟩ := foldlM_eraseIntAt hblock i (Nat.le_refl l.length)
  have hlength : (shifted i l.length l).length = l.length - 1 + 1 := by
    rw [length_shifted i (Nat.le_refl _)]
    omega
  obtain ⟨h', vec', hshrink, hstored⟩ : ∃ h' vec', shrink junk 4 (l.length - 1) vec h₁ =
      some (h', vec', if l.length - 1 = 0 then 1 else 0) ∧
        Stored h' vec' ((shifted i l.length l).take (l.length - 1)) :=
    shrink_eq hblock₁ hlength (by omega) (by decide)
  refine ⟨h', vec', ?_, take_shifted hi ▸ hstored⟩
  rw [eraseInt, checked_eq _ hi, hfold, Option.bind_some, hshrink]

/-- An erase erases, or returns a negative code and leaves everything as it is. -/
theorem call_erase_int {l : List Int32} {junk : ℕ → ℕ → Int32} (hholds : HoldsInts s l)
    (index : ℤ) :
    ∃ s', (ints junk).call s (.erase index) = some (s', ((Op.erase index).apply l).2) ∧
      HoldsInts s' ((Op.erase index).apply l).1 := by
  have hcount := hholds.count_eq
  rcases index_cases index l.length with hout | ⟨i, hi, rfl⟩
  · rw [apply_erase_out hout, ← hcount]
    rw [← hcount] at hout
    exact ⟨s, Functions.call_erase_out rfl hout, hholds⟩
  · have hblock : s.mem.block s.vec = some l := hholds.stored (List.ne_nil_of_length_pos (by omega))
    obtain ⟨h', vec', herase, hstored⟩ := @eraseInt_eq junk _ _ _ _ hblock hholds.count_lt hi
    have hlength : (l.eraseIdx i).length = l.length - 1 := List.length_eraseIdx_of_lt hi
    have hcode : ¬(if l.length - 1 = 0 then (1 : ℤ) else 0) < 0 := by split_ifs <;> decide
    rw [apply_erase hi]
    refine ⟨⟨h', vec', l.length - 1⟩, ?_, hlength.symm, ?_, hstored⟩
    · simp only [Functions.call, ints, hcount, herase, Option.map_some, if_neg hcode]
    · have hlt := hholds.count_lt
      rw [hlength]
      omega

/-- The vector of integers does what lists do exactly as long as its count is an `int`. -/
theorem ints_refinesIff (junk : ℕ → ℕ → Int32) : (ints junk).RefinesIff HoldsInts FitsInt := by
  refine Functions.refinesIff ?_ ?_ ?_
  · intro s hcount
    exact ⟨hcount, by decide, fun hne => absurd rfl hne⟩
  · intro s l op hholds hfits
    cases op with
    | push newEl => exact call_push_int hholds newEl hfits
    | erase index => exact call_erase_int hholds index
  · intro s l op hholds hfits
    cases op with
    | push newEl =>
      have hgrow : grow junk 4 s.count s.vec s.mem = none := by
        rw [hholds.count_eq]
        exact if_neg hfits
      simp only [Functions.call, ints, pushBackInt, hgrow, Option.bind_none, Option.map_none]
    | erase index => exact absurd trivial hfits

end Hack.CVector
