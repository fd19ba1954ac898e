import Hack.Chat.Server

/-!
# Queries of the chat history

`WhatDidYouSay` reads three entries of the history backwards from an index that the client
chooses. It only looks whether there are three entries at all. An index with which one of the reads
is outside of the history is a panic, which ends the server.
-/

namespace Hack.Chat

/-- A query is answered with an error, or with the entries at the index and the two places before
it. -/
def AnswersQuery (s : Server) (index : Int64) : Prop :=
  ∃ answer, s.whatDidYouSay index.toInt = some answer ∧
    match answer with
    | .error _ => True
    | .ok entries => ∃ i : ℕ, index.toInt = i + 2 ∧
      entries.map some = [s.history[i + 2]?, s.history[i + 1]?, s.history[i]?]

/-- There is not enough history, or the three entries are in it. -/
def InHistory (s : Server) (index : Int64) : Prop :=
  s.history.length < 3 ∨ 2 ≤ index.toInt ∧ index.toInt < s.history.length

variable {s : Server} {index : Int64}

/-- The places of a slice. -/
theorem element_natCast {α : Type*} (slice : List α) (i : ℕ) : element slice i = slice[i]? := by
  rw [element, if_neg (Int.not_lt.mpr (Int.natCast_nonneg i)), Int.toNat_natCast]

/-- A place outside of a slice. -/
theorem element_eq_none {α : Type*} {slice : List α} {i : ℤ} (hi : i < 0 ∨ slice.length ≤ i) :
    element slice i = none := by
  rw [element]
  split_ifs
  · rfl
  · exact List.getElem?_eq_none (by omega)

/-- What a query reads. -/
theorem whatDidYouSay_eq (hlength : 3 ≤ s.history.length) (index : ℤ) : s.whatDidYouSay index =
      (element s.history index).bind fun a => (element s.history (index - 1)).bind fun b =>
        (element s.history (index - 2)).map fun c => .ok [a, b, c] := by
  rw [Server.whatDidYouSay, if_neg (Nat.not_lt.mpr hlength)]
  simp only [List.mapM_cons, List.mapM_nil, Int.sub_zero]
  cases element s.history index with
  | none => rfl
  | some a =>
    cases element s.history (index - 1) with
    | none => rfl
    | some b => cases element s.history (index - 2) <;> rfl

/-- A query of any history is answered exactly if the history is short or has the three entries. -/
theorem answersQuery_iff (s : Server) (index : Int64) :
    AnswersQuery s index ↔ InHistory s index := by
  by_cases hshort : s.history.length < 3
  · refine iff_of_true ⟨.error "not enough has been said", ?_, trivial⟩ (.inl hshort)
    rw [Server.whatDidYouSay, if_pos hshort]
  · have heq := whatDidYouSay_eq (Nat.not_lt.mp hshort) index.toInt
    rw [AnswersQuery, InHistory, or_iff_right hshort, heq]
    constructor
    · -- Each of the reads that is out of bounds is a panic.
      rintro ⟨answer, hanswer, -⟩
      obtain ⟨a, ha, hanswer⟩ := Option.bind_eq_some_iff.mp hanswer
      obtain ⟨b, hb, hanswer⟩ := Option.bind_eq_some_iff.mp hanswer
      obtain ⟨c, hc, -⟩ := Option.map_eq_some_iff.mp hanswer
      constructor
      · by_contra hlow
        rw [element_eq_none (.inl (by omega))] at hc
        cases hc
      · by_contra hhigh
        rw [element_eq_none (.inr (by omega))] at ha
        cases ha
    · rintro ⟨hlow, hhigh⟩
      obtain ⟨i, hi⟩ := Int.eq_ofNat_of_zero_le (show 0 ≤ index.toInt - 2 by omega)
      have hindex : index.toInt = ((i + 2 : ℕ) : ℤ) := by omega
      have hindex1 : index.toInt - 1 = ((i + 1 : ℕ) : ℤ) := by omega
      rw [hi, hindex1, hindex, element_natCast, element_natCast, element_natCast]
      have hlt : i + 2 < s.history.length := by omega
      have hread := List.getElem?_eq_getElem hlt
      have hread1 := List.getElem?_eq_getElem (Nat.lt_of_succ_lt hlt)
      have hread2 := List.getElem?_eq_getElem (Nat.lt_of_succ_lt (Nat.lt_of_succ_lt hlt))
      rw [hread, hread1, hread2]
      refine ⟨_, rfl, i, rfl, ?_⟩
      rw [hread, hread1, hread2]
      rfl

/-- After the first talk of a user there are six entries, and a query for the seventh panics. -/
theorem query_behind_history_panics :
    ∃ s, chat.run .init [.hello "bob", .talk "bob-0"] = some s ∧ ¬AnswersQuery s 6 := by
  have hname : "bob-0" ∈ greeted.allowedNames := List.mem_singleton_self _
  have htalk : greeted.talkToMe "bob-0" =
      some ({ greeted with wordIdx := words.length, history := talk }, .ok talk) := by
    rw [talkToMe_eq hname, talkLoop_eq [] rfl rfl (by decide)]
    rfl
  refine ⟨{ greeted with wordIdx := words.length, history := talk }, ?_, ?_⟩
  · simp only [Machine.run, chat, sayHello_init, htalk, Option.map_some, Option.bind_some]
  · rintro ⟨answer, hanswer, -⟩
    cases hanswer

end Hack.Chat
