import Hack.Cpp
import Hack.Loop
import Mathlib.Data.Nat.Digits.Lemmas

/-!
# Addition of two lists of digits

This file embeds `addTwoNumbers` of `0xetc/0xcc/linked-list/add-two-numbers`. Two numbers are given
as linked lists of decimal digits, the lowest digit first. A first loop adds the digits and goes on
as long as one of the lists or a carry is left. It collects a new node for every digit, and a second
loop links these nodes. The number of the nodes is kept as an `int`, so that of more nodes only a
part is linked, or none at all.
-/

namespace Hack.AddTwoNumbers

open Cpp Loop
open Nat (ofDigits)

/-- `ListNode`. The address of a node is its position in memory. -/
structure ListNode where
  val : ℤ
  next : Option ℕ
deriving DecidableEq

/-- What a turn reads of a list: the number of a node and the pointer behind it, or zero and the
flag for the end of the list. -/
structure Read where
  number : ℤ
  next : Option ℕ
  ended : Bool

/-- A list is read. -/
def readNode (memory : List ListNode) : Option ℕ → Option Read
  | some l => memory[l]?.map fun node => ⟨node.val, node.next, false⟩
  | none => some ⟨0, none, true⟩

/-- The variables of the first loop, with the memory. -/
structure Vars where
  memory : List ListNode
  l1 : Option ℕ
  l2 : Option ℕ
  carry : ℤ
  makeAns : List ℕ

/-- `carry + number_one + number_two`. -/
def sum (carry numberOne numberTwo : ℤ) : Option ℤ :=
  (int (carry + numberOne)).bind fun n => int (n + numberTwo)

/-- The variables with a new node behind the memory. -/
def Vars.push (v : Vars) (l1 l2 : Option ℕ) (sum : ℤ) : Vars :=
  ⟨v.memory ++ [⟨sum.tmod 10, none⟩], l1, l2, sum.tdiv 10, v.makeAns ++ [v.memory.length]⟩

/-- A turn of the first loop. -/
def turn (v : Vars) : Option (Turn Vars (List ListNode × List ℕ)) := do
  let one ← readNode v.memory v.l1
  let two ← readNode v.memory v.l2
  if v.carry = 0 ∧ one.ended ∧ two.ended then some (.leave (v.memory, v.makeAns))
  else (sum v.carry one.number two.number).map fun n => .next (v.push one.next two.next n)

/-- `a->next = b`. -/
def setNext (memory : List ListNode) (a b : ℕ) : Option (List ListNode) :=
  memory[a]?.map fun node => memory.set a { node with next := some b }

/-- A turn of the second loop. -/
def link (makeAns : List ℕ) (mkLen : ℤ) (s : List ListNode × Option ℕ) (i : ℕ) :
    Option (List ListNode × Option ℕ) := do
  let a ← makeAns[i]?
  let memory ←
    if i ≠ mkLen - 1 then makeAns[i + 1]?.bind fun b => setNext s.1 a b else some s.1
  some (memory, if i = 0 then some a else s.2)

/-- The second loop. -/
def linkAll (makeAns : List ℕ) (mkLen : ℤ) (memory : List ListNode) :
    Option (List ListNode × Option ℕ) :=
  (List.range mkLen.toNat).foldlM (link makeAns mkLen) (memory, none)

/-- `addTwoNumbers`, with a limit on the turns of its first loop. The result is the memory and
`ans`. -/
def addTwoNumbers (memory : List ListNode) (l1 l2 : Option ℕ) (limit : ℕ) :
    Option (Option (List ListNode × Option ℕ)) :=
  (run turn limit ⟨memory, l1, l2, 0, []⟩).map fun result =>
    result.bind fun (memory, makeAns) => linkAll makeAns (size makeAns) memory

/-- A pointer leads to a list of digits. -/
inductive Holds (memory : List ListNode) : Option ℕ → List ℕ → Prop
  | nil : Holds memory none []
  | cons {l d : ℕ} {next : Option ℕ} {ds : List ℕ} : memory[l]? = some ⟨d, next⟩ →
      Holds memory next ds → Holds memory (some l) (d :: ds)

/-- The function ends and returns the sum of two lists, as a list of digits that has at most one
digit more. The nodes from before are left as they are. -/
def Adds (memory : List ListNode) (l1 l2 : Option ℕ) (one two : List ℕ) : Prop :=
  ∃ limit memory' ans ds, addTwoNumbers memory l1 l2 limit = some (some (memory', ans)) ∧
    Holds memory' ans ds ∧ (∀ d ∈ ds, d ≤ 9) ∧
    ofDigits 10 ds = ofDigits 10 one + ofDigits 10 two ∧
    ds.length ≤ max one.length two.length + 1 ∧ memory <+: memory'

/-- The number of the digits that are added: those of the longer list, and a last carry. -/
def digitCount (one two : List ℕ) : ℕ :=
  max one.length two.length +
    if 10 ^ max one.length two.length ≤ ofDigits 10 one + ofDigits 10 two then 1 else 0

variable {memory : List ListNode} {l : Option ℕ} {ds one two : List ℕ}

/-! ### Lists in memory -/

/-- A pointer leads to one list only. -/
theorem Holds.unique {ds' : List ℕ} (h : Holds memory l ds) (h' : Holds memory l ds') :
    ds = ds' := by
  induction h generalizing ds' with
  | nil =>
    cases h'
    rfl
  | cons hread _ ih =>
    cases h' with
    | cons hread' hrest' =>
      rw [hread] at hread'
      cases hread'
      rw [ih hrest']

/-- What is read of a list, with other nodes behind the memory. -/
theorem Holds.exists_readNode (h : Holds memory l ds) (new : List ListNode) :
    ∃ next, readNode (memory ++ new) l = some ⟨(ds.headD 0 : ℕ), next, decide (ds = [])⟩ ∧
      Holds memory next ds.tail := by
  cases h with
  | nil => exact ⟨none, rfl, .nil⟩
  | cons hread hrest =>
    obtain ⟨hlt, -⟩ := List.getElem?_eq_some_iff.mp hread
    refine ⟨_, ?_, hrest⟩
    rw [readNode, List.getElem?_append_left hlt, hread]
    rfl

/-- Nodes for some digits behind a memory with `base` nodes, of which the first ones are linked. -/
def nodes (base : ℕ) (ds : List ℕ) (linked : ℕ) : List ListNode :=
  ds.mapIdx fun i (d : ℕ) => ⟨d, if i < linked then some (base + (i + 1)) else none⟩

variable {m i : ℕ} {k : ℕ}

theorem getElem?_nodes (memory : List ListNode) (ds : List ℕ) (m i : ℕ) :
    (memory ++ nodes memory.length ds m)[memory.length + i]? = ds[i]?.map fun d =>
      ⟨d, if i < m then some (memory.length + (i + 1)) else none⟩ := by
  rw [List.getElem?_append_right (Nat.le_add_right _ _), Nat.add_sub_cancel_left, nodes,
    List.getElem?_mapIdx]

/-- A new digit. -/
theorem nodes_concat (base : ℕ) (ds : List ℕ) (d : ℕ) :
    nodes base (ds ++ [d]) 0 = nodes base ds 0 ++ [⟨d, none⟩] := by
  simp [nodes, List.mapIdx_append]

/-- The linked nodes are a list of their digits, with the first node that is not linked. -/
theorem holds_nodes (memory : List ListNode) (hm : m < ds.length) (hi : i ≤ m) :
    Holds (memory ++ nodes memory.length ds m) (some (memory.length + i))
      ((ds.take (m + 1)).drop i) := by
  induction hleft : m - i generalizing i with
  | zero =>
    obtain rfl : i = m := by omega
    have hread := getElem?_nodes memory ds i i
    rw [List.getElem?_eq_getElem hm, Option.map_some, if_neg (Nat.lt_irrefl i)] at hread
    rw [List.drop_take, Nat.add_sub_cancel_left, List.take_one_drop_eq_of_lt_length hm]
    exact .cons hread .nil
  | succ left ih =>
    have hlt : i < (ds.take (m + 1)).length := by
      rw [List.length_take]
      omega
    have hread := getElem?_nodes memory ds m i
    rw [List.getElem?_eq_getElem (show i < ds.length by omega), Option.map_some,
      if_pos (by omega)] at hread
    rw [List.drop_eq_getElem_cons hlt, List.getElem_take]
    exact .cons hread (ih (by omega) (by omega))

/-- The list behind the second loop. -/
theorem holds_linked (memory : List ListNode) (hk : k ≤ ds.length) :
    Holds (memory ++ nodes memory.length ds (k - 1))
      (if k = 0 then none else some memory.length) (ds.take k) := by
  rcases Nat.eq_zero_or_pos k with rfl | hpos
  · exact .nil
  · have hnodes := holds_nodes memory (show k - 1 < ds.length by omega)
      (Nat.zero_le (k - 1))
    rw [Nat.sub_add_cancel hpos] at hnodes
    rw [if_neg (by omega)]
    exact hnodes

/-- A node is linked. -/
theorem setNext_nodes (hm : m < ds.length) :
    setNext (memory ++ nodes memory.length ds m) (memory.length + m) (memory.length + (m + 1)) =
      some (memory ++ nodes memory.length ds (m + 1)) := by
  have hread := getElem?_nodes memory ds m m
  rw [List.getElem?_eq_getElem hm, Option.map_some] at hread
  rw [setNext, hread, Option.map_some, List.set_append_right _ _ (Nat.le_add_right _ _),
    Nat.add_sub_cancel_left]
  congr 2
  apply List.ext_getElem
  · simp [nodes]
  · intro i _ _
    simp only [nodes, List.getElem_set, List.getElem_mapIdx]
    by_cases heq : m = i
    · subst heq
      rw [if_pos rfl, if_pos (Nat.lt_succ_self m)]
    · have hiff : i < m + 1 ↔ i < m := by omega
      simp only [if_neg heq, hiff]

/-- The second loop, for a number of nodes that is not more than there are. -/
theorem foldlM_link (memory : List ListNode) {j : ℕ} (hk : k ≤ ds.length) (hj : j ≤ k) :
    (List.range j).foldlM (link (List.range' memory.length ds.length) k)
      (memory ++ nodes memory.length ds 0, none) =
      some (memory ++ nodes memory.length ds (min j (k - 1)),
        if j = 0 then none else some memory.length) := by
  induction j with
  | zero => rw [Nat.zero_min]; rfl
  | succ j ih =>
    have hget : (List.range' memory.length ds.length)[j]? = some (memory.length + j) := by
      rw [List.getElem?_range' (by omega), Nat.one_mul]
    have hstep : link (List.range' memory.length ds.length) k
        (memory ++ nodes memory.length ds (min j (k - 1)),
          if j = 0 then none else some memory.length) j =
        some (memory ++ nodes memory.length ds (min (j + 1) (k - 1)), some memory.length) := by
      have hans : (if j = 0 then some (memory.length + j) else
          if j = 0 then none else some memory.length) = some memory.length := by
        by_cases hzero : j = 0
        · rw [if_pos hzero, hzero, Nat.add_zero]
        · rw [if_neg hzero, if_neg hzero]
      by_cases hlast : j = k - 1
      · have hmin : min (j + 1) (k - 1) = min j (k - 1) := by omega
        simp only [link, hget, Option.bind_eq_bind, Option.bind_some, hans, hmin,
          if_neg (show ¬(j : ℤ) ≠ k - 1 by omega)]
      · have hget' : (List.range' memory.length ds.length)[j + 1]? =
            some (memory.length + (j + 1)) := by
          rw [List.getElem?_range' (by omega), Nat.one_mul]
        have hmin : min j (k - 1) = j := by omega
        have hmin' : min (j + 1) (k - 1) = j + 1 := by omega
        simp only [link, hget, hget', Option.bind_eq_bind, Option.bind_some, hans, hmin, hmin',
          if_pos (show (j : ℤ) ≠ k - 1 by omega),
          setNext_nodes (show j < ds.length by omega)]
    rw [List.range_succ, List.foldlM_append, ih (by omega), Option.bind_eq_bind, Option.bind_some,
      List.foldlM_cons, hstep]
    rfl

/-- The second loop links as many nodes as it counts. -/
theorem linkAll_eq (memory : List ListNode) {mkLen : ℤ} (hlength : mkLen ≤ ds.length) :
    linkAll (List.range' memory.length ds.length) mkLen (memory ++ nodes memory.length ds 0) =
      some (memory ++ nodes memory.length ds (mkLen.toNat - 1),
        if mkLen.toNat = 0 then none else some memory.length) := by
  rcases lt_or_ge 0 mkLen with hpos | hneg
  · obtain ⟨k, rfl⟩ := Int.eq_ofNat_of_zero_le hpos.le
    have hfold := foldlM_link memory (show k ≤ ds.length by omega) (Nat.le_refl k)
    rw [Nat.min_eq_right (Nat.sub_le k 1)] at hfold
    exact hfold
  · rw [linkAll, Int.toNat_of_nonpos hneg]
    rfl

/-! ### The digits -/

theorem ofDigits_eq_headD_add (ds : List ℕ) :
    ofDigits 10 ds = ds.headD 0 + 10 * ofDigits 10 ds.tail := by
  cases ds with
  | nil => rfl
  | cons d ds => exact Nat.ofDigits_cons

theorem ofDigits_lt_pow_length (hds : ∀ d ∈ ds, d ≤ 9) : ofDigits 10 ds < 10 ^ ds.length :=
  Nat.ofDigits_lt_base_pow_length (by decide) fun d hd => Nat.lt_succ_of_le (hds d hd)

/-- What holds in the first loop: the digits that are done and the rest of the two lists are the
sum, and there is a digit for each of the longer list, or one for a last carry besides. -/
structure Vars.Inv (memory : List ListNode) (one two : List ℕ) (v : Vars)
    (done rest1 rest2 : List ℕ) (carry : ℕ) : Prop where
  memory_eq : v.memory = memory ++ nodes memory.length done 0
  makeAns_eq : v.makeAns = List.range' memory.length done.length
  carry_eq : v.carry = carry
  carry_le : carry ≤ 1
  digits : ∀ d ∈ done, d ≤ 9
  holds1 : Holds memory v.l1 rest1
  holds2 : Holds memory v.l2 rest2
  digits1 : ∀ d ∈ rest1, d ≤ 9
  digits2 : ∀ d ∈ rest2, d ≤ 9
  value_eq : ofDigits 10 done + 10 ^ done.length * (carry + ofDigits 10 rest1 + ofDigits 10 rest2) =
      ofDigits 10 one + ofDigits 10 two
  length_eq : done.length + max rest1.length rest2.length = max one.length two.length ∨
    rest1 = [] ∧ rest2 = [] ∧ carry = 0 ∧ done.length = max one.length two.length + 1 ∧
      10 ^ max one.length two.length ≤ ofDigits 10 one + ofDigits 10 two

variable {v : Vars} {done rest1 rest2 : List ℕ} {carry : ℕ} {sum : ℕ} {l1 l2 : Option ℕ}

/-- The first digit of a list of digits. -/
theorem headD_le (hds : ∀ d ∈ ds, d ≤ 9) : ds.headD 0 ≤ 9 := by
  cases ds with
  | nil => exact Nat.zero_le 9
  | cons d ds => exact hds d List.mem_cons_self

/-- The turn that leaves the loop. -/
theorem Vars.Inv.turn_leave (h : v.Inv memory one two done [] [] 0) :
    turn v = some (.leave (v.memory, v.makeAns)) := by
  obtain ⟨_, hread1, -⟩ := h.holds1.exists_readNode (nodes memory.length done 0)
  obtain ⟨_, hread2, -⟩ := h.holds2.exists_readNode (nodes memory.length done 0)
  rw [← h.memory_eq] at hread1 hread2
  have hcarry := h.carry_eq
  simp [turn, hread1, hread2, hcarry]

/-- The turn that adds two digits and the carry. -/
theorem Vars.Inv.exists_turn_eq (h : v.Inv memory one two done rest1 rest2 carry)
    (hmore : ¬(carry = 0 ∧ rest1 = [] ∧ rest2 = []))
    (hsum : sum = carry + rest1.headD 0 + rest2.headD 0) :
    ∃ l1 l2, Holds memory l1 rest1.tail ∧ Holds memory l2 rest2.tail ∧
      turn v = some (.next ⟨memory ++ nodes memory.length (done ++ [sum % 10]) 0, l1, l2,
        (sum / 10 : ℕ), List.range' memory.length (done.length + 1)⟩) := by
  obtain ⟨l1, hread1, hholds1⟩ := h.holds1.exists_readNode (nodes memory.length done 0)
  obtain ⟨l2, hread2, hholds2⟩ := h.holds2.exists_readNode (nodes memory.length done 0)
  rw [← h.memory_eq] at hread1 hread2
  have hcarry := h.carry_le
  have hone := headD_le h.digits1
  have htwo := headD_le h.digits2
  have hnot : ¬(v.carry = 0 ∧ decide (rest1 = []) = true ∧ decide (rest2 = []) = true) := by
    rw [h.carry_eq, decide_eq_true_eq, decide_eq_true_eq]
    simpa using hmore
  have hadd : AddTwoNumbers.sum v.carry (rest1.headD 0 : ℕ) (rest2.headD 0 : ℕ) =
      some (sum : ℤ) := by
    rw [AddTwoNumbers.sum, h.carry_eq, int_eq (by omega) (by omega), Option.bind_some,
      int_eq (by omega) (by omega), hsum]
    rfl
  have hlength : v.memory.length = memory.length + done.length := by
    rw [h.memory_eq, List.length_append, nodes, List.length_mapIdx]
  have hpush : v.push l1 l2 sum = ⟨memory ++ nodes memory.length (done ++ [sum % 10]) 0, l1, l2,
      (sum / 10 : ℕ), List.range' memory.length (done.length + 1)⟩ := by
    rw [Vars.push, hlength, h.memory_eq, h.makeAns_eq, nodes_concat, List.append_assoc,
      List.range'_1_concat]
    rfl
  refine ⟨l1, l2, hholds1, hholds2, ?_⟩
  rw [turn, hread1, hread2, ← hpush]
  simp only [Option.bind_eq_bind, Option.bind_some, if_neg hnot, hadd, Option.map_some]

/-- The number behind a turn. -/
theorem value_step (hsum : sum = carry + rest1.headD 0 + rest2.headD 0) (done : List ℕ) :
    ofDigits 10 (done ++ [sum % 10]) + 10 ^ (done ++ [sum % 10]).length *
        (sum / 10 + ofDigits 10 rest1.tail + ofDigits 10 rest2.tail) =
      ofDigits 10 done + 10 ^ done.length * (carry + ofDigits 10 rest1 + ofDigits 10 rest2) := by
  have hsplit : carry + ofDigits 10 rest1 + ofDigits 10 rest2 = sum % 10 +
      10 * (sum / 10 + ofDigits 10 rest1.tail + ofDigits 10 rest2.tail) := by
    have hone := ofDigits_eq_headD_add rest1
    have htwo := ofDigits_eq_headD_add rest2
    omega
  rw [hsplit, Nat.ofDigits_append, Nat.ofDigits_singleton, List.length_append,
    List.length_singleton, pow_succ]
  ring

/-- The number of the digits behind a turn. The carry that is left at the end of both lists is one,
and so is the last digit. -/
theorem Vars.Inv.length_step (h : v.Inv memory one two done rest1 rest2 carry)
    (hmore : ¬(carry = 0 ∧ rest1 = [] ∧ rest2 = []))
    (hsum : sum = carry + rest1.headD 0 + rest2.headD 0) :
    (done ++ [sum % 10]).length + max rest1.tail.length rest2.tail.length =
        max one.length two.length ∨
      rest1.tail = [] ∧ rest2.tail = [] ∧ sum / 10 = 0 ∧
        (done ++ [sum % 10]).length = max one.length two.length + 1 ∧
        10 ^ max one.length two.length ≤ ofDigits 10 one + ofDigits 10 two := by
  have hcarry := h.carry_le
  rw [List.length_append, List.length_singleton, List.length_tail, List.length_tail]
  rcases h.length_eq with hlength | ⟨hempty1, hempty2, hzero, -⟩
  · by_cases hempty : rest1 = [] ∧ rest2 = []
    · obtain ⟨rfl, rfl⟩ := hempty
      have hlast : carry = 1 := by
        by_contra hne
        exact hmore ⟨by omega, rfl, rfl⟩
      have hvalue := h.value_eq
      rw [List.length_nil, Nat.max_self, Nat.add_zero] at hlength
      rw [hlast, hlength, Nat.ofDigits_nil] at hvalue
      right
      refine ⟨rfl, rfl, ?_, by rw [hlength], by omega⟩
      rw [hsum, hlast]
      rfl
    · left
      have hpos : 0 < max rest1.length rest2.length := by
        by_contra hnone
        exact hempty ⟨List.eq_nil_of_length_eq_zero (by omega),
          List.eq_nil_of_length_eq_zero (by omega)⟩
      omega
  · exact absurd ⟨hzero, hempty1, hempty2⟩ hmore

/-- A turn that adds two digits and the carry keeps what holds in the loop. -/
theorem Vars.Inv.turn_next (h : v.Inv memory one two done rest1 rest2 carry)
    (hmore : ¬(carry = 0 ∧ rest1 = [] ∧ rest2 = []))
    (hsum : sum = carry + rest1.headD 0 + rest2.headD 0) : ∃ v', turn v = some (.next v') ∧
      v'.Inv memory one two (done ++ [sum % 10]) rest1.tail rest2.tail (sum / 10) := by
  obtain ⟨l1, l2, hholds1, hholds2, hturn⟩ := h.exists_turn_eq hmore hsum
  have hcarry := h.carry_le
  have hone := headD_le h.digits1
  have htwo := headD_le h.digits2
  refine ⟨_, hturn, ?_⟩
  exact {
    memory_eq := rfl
    makeAns_eq := by rw [List.length_append, List.length_singleton]
    carry_eq := rfl
    carry_le := by omega
    digits := by
      rw [List.forall_mem_append, List.forall_mem_singleton]
      exact ⟨h.digits, by omega⟩
    holds1 := hholds1
    holds2 := hholds2
    digits1 := fun d hd => h.digits1 d (List.mem_of_mem_tail hd)
    digits2 := fun d hd => h.digits2 d (List.mem_of_mem_tail hd)
    value_eq := (value_step hsum done).trans h.value_eq
    length_eq := h.length_step hmore hsum }

/-- The digits behind the last turn. -/
theorem Vars.Inv.sum_eq (h : v.Inv memory one two done [] [] 0) :
    ofDigits 10 done = ofDigits 10 one + ofDigits 10 two ∧ done.length = digitCount one two := by
  have hvalue := h.value_eq
  rw [Nat.ofDigits_nil, Nat.mul_zero, Nat.add_zero] at hvalue
  refine ⟨hvalue, ?_⟩
  rw [digitCount, ← hvalue]
  rcases h.length_eq with hlength | ⟨-, -, -, hlength, hle⟩
  · rw [List.length_nil, Nat.max_self, Nat.add_zero] at hlength
    rw [← hlength, if_neg (Nat.not_le.mpr (ofDigits_lt_pow_length h.digits)), Nat.add_zero]
  · rw [hvalue, if_pos hle, hlength]

/-- There are never more digits than those of the longer list and one. -/
theorem Vars.Inv.length_le (h : v.Inv memory one two done rest1 rest2 carry) :
    v.makeAns.length ≤ max one.length two.length + 1 := by
  rw [h.makeAns_eq, List.length_range']
  rcases h.length_eq with hlength | ⟨-, -, -, hlength, -⟩ <;> omega

/-- What the first loop leaves behind: nodes for the digits of the sum. -/
theorem exists_returns_turn (hone : Holds memory l1 one) (htwo : Holds memory l2 two)
    (hdigits1 : ∀ d ∈ one, d ≤ 9) (hdigits2 : ∀ d ∈ two, d ≤ 9) :
    ∃ done, Returns turn ⟨memory, l1, l2, 0, []⟩
        (memory ++ nodes memory.length done 0, List.range' memory.length done.length) ∧
      (∀ d ∈ done, d ≤ 9) ∧
      ofDigits 10 done = ofDigits 10 one + ofDigits 10 two ∧
      done.length = digitCount one two := by
  suffices hloop : ∃ r, Returns turn ⟨memory, l1, l2, 0, []⟩ r ∧ ∃ done,
      r = (memory ++ nodes memory.length done 0, List.range' memory.length done.length) ∧
      (∀ d ∈ done, d ≤ 9) ∧
      ofDigits 10 done = ofDigits 10 one + ofDigits 10 two ∧
      done.length = digitCount one two by
    obtain ⟨_, hreturns, done, rfl, hdone⟩ := hloop
    exact ⟨done, hreturns, hdone⟩
  apply exists_returns
    (fun v => ∃ done rest1 rest2 carry, v.Inv memory one two done rest1 rest2 carry) _
    (fun v => max one.length two.length + 2 - v.makeAns.length)
  · rintro v ⟨done, rest1, rest2, carry, hinv⟩
    by_cases hmore : carry = 0 ∧ rest1 = [] ∧ rest2 = []
    · obtain ⟨rfl, rfl, rfl⟩ := hmore
      right
      refine ⟨_, hinv.turn_leave, done, ?_, hinv.digits, hinv.sum_eq⟩
      rw [hinv.memory_eq, hinv.makeAns_eq]
    · left
      obtain ⟨v', hturn, hinv'⟩ := hinv.turn_next hmore rfl
      refine ⟨v', hturn, ⟨_, _, _, _, hinv'⟩, ?_⟩
      have hle := hinv'.length_le
      have hnext : v'.makeAns.length = v.makeAns.length + 1 := by
        rw [hinv'.makeAns_eq, hinv.makeAns_eq, List.length_range', List.length_range',
          List.length_append, List.length_singleton]
      omega
  · exact ⟨[], one, two, 0, {
      memory_eq := (List.append_nil memory).symm
      makeAns_eq := rfl
      carry_eq := rfl
      carry_le := Nat.zero_le 1
      digits := nofun
      holds1 := hone
      holds2 := htwo
      digits1 := hdigits1
      digits2 := hdigits2
      value_eq := by simp
      length_eq := .inl (Nat.zero_add _) }⟩

/-! ### The result -/

/-- What the function returns, for the number of nodes that the second loop counts. -/
theorem exists_addTwoNumbers_iff
    (hreturns : Returns turn ⟨memory, l1, l2, 0, []⟩ (memory ++ nodes memory.length done 0,
      List.range' memory.length done.length))
    (hk : (size done).toNat = k) {result : List ListNode × Option ℕ} :
    (∃ limit, addTwoNumbers memory l1 l2 limit = some (some result)) ↔
      (memory ++ nodes memory.length done (k - 1), if k = 0 then none else some memory.length) =
        result := by
  have hsize : size (List.range' memory.length done.length) = size done := by
    unfold size
    rw [List.length_range']
  have hlink := linkAll_eq memory (size_le done)
  rw [hk, ← hsize] at hlink
  simp only [addTwoNumbers, Option.map_eq_some_iff, Option.bind_eq_some_iff]
  constructor
  · rintro ⟨limit, _, hrun, ⟨memory', makeAns⟩, rfl, hresult⟩
    obtain ⟨rfl, rfl⟩ := Prod.mk.inj (hreturns.unique ⟨limit, hrun⟩)
    exact Option.some.inj (hlink.symm.trans hresult)
  · rintro rfl
    obtain ⟨limit, hrun⟩ := hreturns
    exact ⟨limit, _, hrun, _, rfl, hlink⟩

/-- The lowest digits of a number are the number exactly if it is not too large for them. -/
theorem ofDigits_take_eq_iff (hdigits : ∀ d ∈ done, d ≤ 9) (hk : k ≤ done.length) :
    ofDigits 10 (done.take k) = ofDigits 10 done ↔ ofDigits 10 done < 10 ^ k := by
  have hlength : (done.take k).length = k := List.length_take_of_le hk
  have hlow : ofDigits 10 (done.take k) < 10 ^ k := by
    have hlt := ofDigits_lt_pow_length fun d hd => hdigits d (List.mem_of_mem_take hd (i := k))
    rwa [hlength] at hlt
  have hsplit : ofDigits 10 done =
      ofDigits 10 (done.take k) + 10 ^ k * ofDigits 10 (done.drop k) := by
    have happend : ofDigits 10 (done.take k ++ done.drop k) = _ := Nat.ofDigits_append
    rwa [List.take_append_drop, hlength] at happend
  constructor
  · intro heq
    rw [← heq]
    exact hlow
  · intro hlt
    have hzero : ofDigits 10 (done.drop k) = 0 := by
      by_contra hne
      have hle : 10 ^ k * 1 ≤ 10 ^ k * ofDigits 10 (done.drop k) :=
        Nat.mul_le_mul_left _ (Nat.pos_of_ne_zero hne)
      omega
    rw [hsplit, hzero, Nat.mul_zero, Nat.add_zero]

/-- The function returns the sum exactly if the digits that are linked are enough for it. -/
theorem adds_iff_of_returns
    (hreturns : Returns turn ⟨memory, l1, l2, 0, []⟩ (memory ++ nodes memory.length done 0,
      List.range' memory.length done.length))
    (hdigits : ∀ d ∈ done, d ≤ 9)
    (hvalue : ofDigits 10 done = ofDigits 10 one + ofDigits 10 two)
    (hlength : done.length = digitCount one two) :
    Adds memory l1 l2 one two ↔ ofDigits 10 done < 10 ^ (size done).toNat := by
  have hk : (size done).toNat ≤ done.length := by
    have hle := size_le done
    omega
  generalize hkeq : (size done).toNat = k at hk
  have hholds := holds_linked memory hk
  rw [← ofDigits_take_eq_iff hdigits hk]
  constructor
  · rintro ⟨limit, memory', ans, ds, hresult, hds, -, hsum, -⟩
    have heq := (exists_addTwoNumbers_iff hreturns hkeq).mp ⟨limit, hresult⟩
    obtain ⟨rfl, rfl⟩ := Prod.mk.inj heq
    rw [hholds.unique hds, hsum, hvalue]
  · intro htake
    obtain ⟨limit, hresult⟩ := (exists_addTwoNumbers_iff hreturns hkeq).mpr rfl
    refine ⟨limit, _, _, _, hresult, hholds, ?_, htake.trans hvalue, ?_, List.prefix_append _ _⟩
    · exact fun d hd => hdigits d (List.mem_of_mem_take hd)
    · have hcount : digitCount one two ≤ max one.length two.length + 1 := by
        unfold digitCount
        split_ifs <;> omega
      rw [List.length_take]
      omega

/-- **Addition.** The function returns the sum of two lists of digits exactly if the sum has no
more digits than the number of the new nodes says after its conversion to `int`. -/
theorem adds_iff {l1 l2 : Option ℕ} (hone : Holds memory l1 one) (htwo : Holds memory l2 two)
    (hdigits1 : ∀ d ∈ one, d ≤ 9) (hdigits2 : ∀ d ∈ two, d ≤ 9) :
    Adds memory l1 l2 one two ↔ ofDigits 10 one + ofDigits 10 two <
      10 ^ (Int.bmod (digitCount one two) (2 ^ 32)).toNat := by
  obtain ⟨done, hreturns, hdigits, hvalue, hlength⟩ :=
    exists_returns_turn hone htwo hdigits1 hdigits2
  have hsize : Int.bmod (digitCount one two) (2 ^ 32) = size done := by
    unfold size
    rw [hlength]
  rw [adds_iff_of_returns hreturns hdigits hvalue hlength, hsize, hvalue]

/-- A number of nodes that fits is enough. -/
theorem add_lt_of_digitCount_lt (hdigits1 : ∀ d ∈ one, d ≤ 9) (hdigits2 : ∀ d ∈ two, d ≤ 9)
    (hcount : digitCount one two < 2 ^ 31) : ofDigits 10 one + ofDigits 10 two <
      10 ^ (Int.bmod (digitCount one two) (2 ^ 32)).toNat := by
  have hfits : (Int.bmod (digitCount one two) (2 ^ 32)).toNat = digitCount one two := by
    rw [Int.bmod_def]
    omega
  have hone : ofDigits 10 one < 10 ^ max one.length two.length :=
    (ofDigits_lt_pow_length hdigits1).trans_le
      (Nat.pow_le_pow_right (by decide) (Nat.le_max_left _ _))
  have htwo : ofDigits 10 two < 10 ^ max one.length two.length :=
    (ofDigits_lt_pow_length hdigits2).trans_le
      (Nat.pow_le_pow_right (by decide) (Nat.le_max_right _ _))
  rw [hfits, digitCount]
  split_ifs with hcarry
  · rw [pow_succ]
    omega
  · rw [Nat.add_zero]
    omega

/-- The sum of 99 and 1. -/
theorem adds_ninetyNine : Adds [⟨9, some 1⟩, ⟨9, none⟩, ⟨1, none⟩] (some 0) (some 2) [9, 9] [1] :=
  (adds_iff (.cons rfl (.cons rfl .nil)) (.cons rfl .nil) (by decide) (by decide)).mpr
    (add_lt_of_digitCount_lt (by decide) (by decide) (by decide))

/-- Of `2 ^ 31` digits none is linked, and the result is zero. -/
theorem not_adds_of_length_eq (hlength : ds.length = 2 ^ 31) (hdigits : ∀ d ∈ ds, d ≤ 9)
    (hne : ofDigits 10 ds ≠ 0) :
    ¬Adds (nodes 0 ds (ds.length - 1)) (some 0) none ds [] := by
  have hholds : Holds (nodes 0 ds (ds.length - 1)) (some 0) ds := by
    have hlinked := holds_linked [] (Nat.le_refl ds.length)
    rwa [if_neg (by omega), List.take_length] at hlinked
  have hcount : digitCount ds [] = 2 ^ 31 := by
    have hlt := ofDigits_lt_pow_length hdigits
    rw [digitCount, List.length_nil, Nat.max_zero, Nat.ofDigits_nil, Nat.add_zero,
      if_neg (Nat.not_le.mpr hlt), Nat.add_zero, hlength]
  obtain ⟨done, hreturns, hdone, hvalue, hdoneLength⟩ :=
    exists_returns_turn hholds .nil hdigits nofun
  have hnone : (size done).toNat = 0 :=
    Int.toNat_of_nonpos (size_nonpos (by omega) (by omega))
  rw [adds_iff_of_returns hreturns hdone hvalue hdoneLength, hnone, hvalue]
  omega

/-- The number with `2 ^ 31` digits of one, and zero. -/
theorem not_adds_replicate : ¬Adds (nodes 0 (List.replicate (2 ^ 31) 1) (2 ^ 31 - 1)) (some 0) none
      (List.replicate (2 ^ 31) 1) [] := by
  have hlength : (List.replicate (2 ^ 31) 1).length = 2 ^ 31 := List.length_replicate
  have hnot := not_adds_of_length_eq hlength
  rw [hlength] at hnot
  apply hnot
  · intro d hd
    rw [List.eq_of_mem_replicate hd]
    decide
  · obtain ⟨n, hn⟩ : ∃ n, 2 ^ 31 = n + 1 := ⟨2 ^ 31 - 1, by omega⟩
    rw [hn, List.replicate_succ, Nat.ofDigits_cons]
    omega

end Hack.AddTwoNumbers
