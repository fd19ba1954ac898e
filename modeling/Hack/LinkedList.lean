import Mathlib.Data.List.Basic

/-!
# Singly linked lists in memory

A chain describes a null-terminated list: following the link of each node from a
head pointer visits exactly the given addresses, all of which hold a node. The
address and node types, the link field, and the way memory is read are arbitrary.
Writes to nodes outside a chain, and writes that keep the links, do not affect it.
-/

namespace Hack.LinkedList

variable {Addr Node : Type*} {next : Node → Option Addr}

/-- The addresses visited from a head pointer until the null link. -/
inductive Chain (next : Node → Option Addr) (read : Addr → Option Node) :
    Option Addr → List Addr → Prop
  | nil : Chain next read none []
  | cons {a : Addr} {node : Node} {rest : List Addr} : read a = some node →
      Chain next read (next node) rest → Chain next read (some a) (a :: rest)

variable {read read' : Addr → Option Node} {head : Option Addr} {l : List Addr} {a : Addr}

/-- The chain of a non-null head begins with it and goes on behind its link. -/
theorem Chain.exists_cons (h : Chain next read (some a) l) :
    ∃ node rest, read a = some node ∧ l = a :: rest ∧ Chain next read (next node) rest := by
  cases h with
  | cons hread hrest => exact ⟨_, _, hread, rfl, hrest⟩

/-- There is only one chain from a head pointer. -/
theorem Chain.unique {l' : List Addr} (h : Chain next read head l)
    (h' : Chain next read head l') : l = l' := by
  induction h generalizing l' with
  | nil =>
    cases h'
    rfl
  | cons hread _ ih =>
    obtain ⟨node, rest, hread', rfl, hrest⟩ := h'.exists_cons
    cases hread.symm.trans hread'
    rw [ih hrest]

/-- A chain only depends on the links of its own nodes. -/
theorem Chain.congr (h : Chain next read head l)
    (hlinks : ∀ a ∈ l, (read' a).map next = (read a).map next) : Chain next read' head l := by
  induction h with
  | nil => exact .nil
  | @cons a node rest hread _ ih =>
    have hlink := hlinks a List.mem_cons_self
    rw [hread] at hlink
    obtain ⟨node', hread', hnext⟩ := Option.map_eq_some_iff.mp hlink
    refine .cons hread' ?_
    rw [hnext]
    exact ih fun b hb => hlinks b (List.mem_cons_of_mem _ hb)

end Hack.LinkedList
