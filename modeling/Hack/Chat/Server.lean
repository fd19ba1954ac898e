import Hack.Machine
import Mathlib.Algebra.Group.Nat.Defs

/-!
# The chat server

This file embeds `0xgo/grpc/server/main.go`. The position in the list of words is a variable of
the package: a talk moves it forward and no talk moves it back, while the number of rounds is
counted from zero in every talk. The first talk sends all words, and the second one reads behind
the end of the list. A panic in a handler ends the server, and a call that panics has no result.
-/

namespace Hack.Chat

/-- `words`. -/
def words : List String := ["hello", "my", "name", "is", "test", "program"]

/-- `TalkContent`. -/
structure TalkContent where
  index : ℕ
  content : String
deriving DecidableEq

/-- The variables of the package. -/
structure Server where
  allowedNames : List String
  userIdx : Int64
  loopIdx : ℕ
  wordIdx : ℕ
  history : List TalkContent
deriving DecidableEq

/-- The variables when the server starts. -/
def Server.init : Server := ⟨[], 0, 0, 0, []⟩

/-- `append`, which panics when the length is no longer an `int`. -/
def append {α : Type*} (slice : List α) (element : α) : Option (List α) :=
  if slice.length + 1 < 2 ^ 63 then some (slice ++ [element]) else none

/-- An element of a slice. An index outside of it is a panic. -/
def element {α : Type*} (slice : List α) (index : ℤ) : Option α :=
  if index < 0 then none else slice[index.toNat]?

/-- `strconv.FormatInt` in base ten. -/
def formatInt (v : Int64) : String := v.toInt.repr

/-- `SayHello`, with the identity that it returns. -/
def Server.sayHello (s : Server) (name : String) : Option (Server × String) :=
  let allowing := name ++ "-" ++ formatInt s.userIdx
  (append s.allowedNames allowing).map fun allowedNames =>
    ({ s with userIdx := s.userIdx + 1, allowedNames }, allowing)

/-- The search for a name among the allowed ones. -/
def hit (name : String) : List String → Bool
  | [] => false
  | allowed :: names => if name = allowed then true else hit name names

/-- The loop that sends the words. An error in sending is logged and changes nothing. -/
def Server.talkLoop (s : Server) (sent : List TalkContent) : Option (Server × List TalkContent) :=
  if s.loopIdx > words.length - 1 then some ({ s with loopIdx := 0 }, sent)
  else
    (words[s.wordIdx]?).bind fun content =>
      let tc : TalkContent := ⟨s.wordIdx, content⟩
      (append s.history tc).bind fun history =>
        Server.talkLoop
          { s with history, loopIdx := s.loopIdx + 1, wordIdx := s.wordIdx + 1 } (sent ++ [tc])
termination_by words.length - s.loopIdx
decreasing_by
  simp only [words, List.length_cons, List.length_nil] at *
  omega

/-- `TalkToMe`, with what it sends or the error that it returns. -/
def Server.talkToMe (s : Server) (message : String) :
    Option (Server × Except String (List TalkContent)) :=
  if s.allowedNames.length = 0 then some (s, .error "no allowed user")
  else if !hit message s.allowedNames then some (s, .error "failed to retrieve user")
  else (s.talkLoop []).map fun (s, sent) => (s, .ok sent)

/-- `WhatDidYouSay`, which reads three entries backwards from an index. -/
def Server.whatDidYouSay (s : Server) (index : ℤ) : Option (Except String (List TalkContent)) :=
  if s.history.length < 3 then some (.error "not enough has been said")
  else ([0, 1, 2].mapM fun i => element s.history (index - i)).map .ok

/-- The calls of clients. -/
inductive Call
  | hello (name : String)
  | talk (message : String)
  | ask (index : ℤ)

/-- The server that takes calls one after another. -/
def chat : Machine Server Call where
  start s := s = .init
  next s
    | .hello name => (s.sayHello name).map Prod.fst
    | .talk message => (s.talkToMe message).map Prod.fst
    | .ask index => (s.whatDidYouSay index).map fun _ => s

/-- The full list of words, as a talk sends it. -/
def talk : List TalkContent := words.mapIdx fun i content => ⟨i, content⟩

variable {s s' : Server} {name message identity : String} {call : Call} {left : ℕ}

/-- The search finds the allowed names. -/
@[simp] theorem hit_iff (names : List String) : hit name names = true ↔ name ∈ names := by
  induction names with
  | nil => simp [hit]
  | cons allowed names ih => simp [hit, ih]

/-- What a greeting changes. -/
theorem sayHello_eq_some (h : s.sayHello name = some (s', identity)) :
    identity = name ++ "-" ++ formatInt s.userIdx ∧ s.allowedNames.length + 1 < 2 ^ 63 ∧
      s' = { s with userIdx := s.userIdx + 1, allowedNames := s.allowedNames ++ [identity] } := by
  obtain ⟨names, hnames, heq⟩ := Option.map_eq_some_iff.mp h
  unfold append at hnames
  split_ifs at hnames with hroom
  cases hnames
  cases heq
  exact ⟨rfl, hroom, rfl⟩

/-- The talk of a user that has an identity. -/
theorem talkToMe_eq (hname : message ∈ s.allowedNames) :
    s.talkToMe message = (s.talkLoop []).map fun (s, sent) => (s, .ok sent) := by
  have hlength := List.length_pos_of_mem hname
  rw [Server.talkToMe, if_neg (by omega), if_neg (by simpa using hname)]

/-- The next word of a talk and the ones behind it. -/
theorem drop_talk {i : ℕ} (hi : i < words.length) :
    talk.drop i = ⟨i, words[i]⟩ :: talk.drop (i + 1) := by
  have hi' : i < talk.length := by rwa [talk, List.length_mapIdx]
  rw [List.drop_eq_getElem_cons hi']
  simp only [talk, List.getElem_mapIdx]

/-- The loop sends the rest of the words while its two positions agree. -/
theorem talkLoop_eq (sent : List TalkContent) (hword : s.wordIdx = s.loopIdx)
    (hhistory : s.history.length = s.wordIdx) (hle : s.loopIdx ≤ words.length) :
    s.talkLoop sent =
      some ({ s with loopIdx := 0, wordIdx := words.length,
                     history := s.history ++ talk.drop s.wordIdx },
        sent ++ talk.drop s.wordIdx) := by
  have hsix : words.length = 6 := rfl
  -- The rounds that are left carry the induction.
  induction hrounds : words.length - s.loopIdx generalizing s sent with
  | zero =>
    have hend : talk.drop s.wordIdx = [] := List.drop_eq_nil_of_le (by
      rw [talk, List.length_mapIdx]
      omega)
    have hall : s.wordIdx = words.length := by omega
    rw [Server.talkLoop, if_pos (by omega), hend, List.append_nil, List.append_nil, ← hall]
  | succ rounds ih =>
    have hnext : s.wordIdx < words.length := by omega
    have hroom : s.history.length + 1 < 2 ^ 63 := by omega
    rw [Server.talkLoop, if_neg (by omega), List.getElem?_eq_getElem hnext, Option.bind_some]
    simp only [append, hroom, if_true, Option.bind_some]
    rw [ih, drop_talk hnext]
    · simp only [List.append_assoc, List.singleton_append]
    · exact congrArg (· + 1) hword
    · rw [List.length_append, List.length_singleton, hhistory]
    · dsimp only
      omega
    · dsimp only
      omega

/-- The state before the first talk. -/
structure Fresh (s : Server) : Prop where
  loopIdx_eq : s.loopIdx = 0
  wordIdx_eq : s.wordIdx = 0
  history_eq : s.history = []

/-- The state after a talk. -/
structure Spent (s : Server) : Prop where
  loopIdx_eq : s.loopIdx = 0
  wordIdx_eq : s.wordIdx = words.length

/-- The first talk sends all words. -/
theorem Fresh.talkToMe_eq (hfresh : Fresh s) (hname : message ∈ s.allowedNames) :
    ∃ s', s.talkToMe message = some (s', .ok talk) ∧ Spent s' ∧
      s'.allowedNames = s.allowedNames := by
  obtain ⟨hloop, hword, hhistory⟩ := hfresh
  refine ⟨{ s with loopIdx := 0, wordIdx := words.length, history := talk }, ?_, ⟨rfl, rfl⟩, rfl⟩
  rw [Chat.talkToMe_eq hname, talkLoop_eq [] (by omega) (by simp [hhistory, hword]) (by omega)]
  simp [hhistory, hword]

/-- A talk after it reads behind the last word. -/
theorem Spent.talkToMe_eq (hspent : Spent s) (hname : message ∈ s.allowedNames) :
    s.talkToMe message = none := by
  have hend : words[s.wordIdx]? = none := by
    rw [hspent.wordIdx_eq, List.getElem?_eq_none (Nat.le_refl _)]
  have hfirst : ¬s.loopIdx > words.length - 1 := by
    rw [hspent.loopIdx_eq]
    decide
  rw [Chat.talkToMe_eq hname, Server.talkLoop, if_neg hfirst, hend]
  rfl

/-- Talks are of users that have an identity, and the other calls return. -/
def Registered (s : Server) : Call → Prop
  | .hello name => (s.sayHello name).isSome
  | .talk message => message ∈ s.allowedNames
  | .ask index => (s.whatDidYouSay index).isSome

/-- A talk returns and has sent all words. -/
def TalksFully (s : Server) : Call → Prop
  | .hello _ => True
  | .talk message => ∃ s', s.talkToMe message = some (s', .ok talk)
  | .ask _ => True

/-- The call is a talk. -/
def Call.isTalk : Call → Bool
  | .hello _ => false
  | .talk _ => true
  | .ask _ => false

/-- A call that is no talk moves no position. -/
theorem next_of_not_talk (hcall : call.isTalk = false) (hregistered : Registered s call) :
    ∃ s', chat.next s call = some s' ∧ s'.loopIdx = s.loopIdx ∧ s'.wordIdx = s.wordIdx ∧
      s'.history = s.history := by
  cases call with
  | talk message => cases hcall
  | ask index =>
    obtain ⟨answer, hanswer⟩ := Option.isSome_iff_exists.mp hregistered
    exact ⟨s, by simp only [chat, hanswer, Option.map_some], rfl, rfl, rfl⟩
  | hello name =>
    obtain ⟨⟨s', identity⟩, hhello⟩ := Option.isSome_iff_exists.mp hregistered
    obtain ⟨-, -, heq⟩ := sayHello_eq_some hhello
    have hnext : chat.next s (.hello name) = some s' := by
      simp only [chat, hhello, Option.map_some]
    exact ⟨s', hnext, by rw [heq], by rw [heq], by rw [heq]⟩

/-- How many more talks send all words. -/
inductive TalksLeft (s : Server) : ℕ → Prop
  | fresh : Fresh s → TalksLeft s 1
  | spent : Spent s → TalksLeft s 0

/-- Only the positions and the history matter. -/
theorem TalksLeft.of_eq (hleft : TalksLeft s left) (hloop : s'.loopIdx = s.loopIdx)
    (hword : s'.wordIdx = s.wordIdx) (hhistory : s'.history = s.history) : TalksLeft s' left := by
  cases hleft with
  | fresh hfresh =>
    exact .fresh ⟨hloop.trans hfresh.loopIdx_eq, hword.trans hfresh.wordIdx_eq,
      hhistory.trans hfresh.history_eq⟩
  | spent hspent => exact .spent ⟨hloop.trans hspent.loopIdx_eq, hword.trans hspent.wordIdx_eq⟩

/-- A call that is no talk asks nothing. -/
theorem talksFully_of_not_talk (hcall : call.isTalk = false) : TalksFully s call := by
  cases call with
  | hello name => trivial
  | ask index => trivial
  | talk message => cases hcall

/-- All talks of a sequence succeed exactly if they are not more than are left. -/
theorem TalksLeft.along_iff (hleft : TalksLeft s left) {calls : List Call}
    (hregistered : chat.Along Registered s calls) :
    chat.Along TalksFully s calls ↔ calls.countP Call.isTalk ≤ left := by
  induction calls generalizing s left with
  | nil => exact iff_of_true trivial (Nat.zero_le left)
  | cons call calls ih =>
    obtain ⟨hfirst, hrest⟩ := hregistered
    cases hcall : call.isTalk with
    | false =>
      obtain ⟨s', hnext, hloop, hword, hhistory⟩ := next_of_not_talk hcall hfirst
      have hleft' : TalksLeft s' left := hleft.of_eq hloop hword hhistory
      rw [List.countP_cons_of_neg (by simp [hcall]), ← ih hleft' (hrest s' hnext)]
      exact ⟨fun h => h.2 s' hnext, Machine.Along.cons (talksFully_of_not_talk hcall) hnext⟩
    | true =>
      obtain ⟨message, rfl⟩ : ∃ message, call = .talk message := by
        cases call with
        | talk message => exact ⟨message, rfl⟩
        | hello name => cases hcall
        | ask index => cases hcall
      rw [List.countP_cons_of_pos hcall]
      cases hleft with
      | fresh hfresh =>
        obtain ⟨s', htalk, hspent, -⟩ := hfresh.talkToMe_eq hfirst
        have hnext : chat.next s (.talk message) = some s' := by
          simp only [chat, htalk, Option.map_some]
        rw [Nat.succ_le_succ_iff, ← ih (.spent hspent) (hrest s' hnext)]
        exact ⟨fun h => h.2 s' hnext, Machine.Along.cons ⟨s', htalk⟩ hnext⟩
      | spent hspent =>
        refine iff_of_false (fun h => ?_) (Nat.not_succ_le_zero _)
        obtain ⟨s', htalk⟩ := h.1
        rw [hspent.talkToMe_eq hfirst] at htalk
        cases htalk

/-- In a sequence of calls by users that have an identity, every talk returns and sends all words
exactly when there is at most one talk. -/
theorem talks_send_all_words_iff {calls : List Call}
    (hregistered : chat.Along Registered .init calls) :
    chat.Along TalksFully .init calls ↔ calls.countP Call.isTalk ≤ 1 :=
  TalksLeft.along_iff (.fresh ⟨rfl, rfl, rfl⟩) hregistered

/-- The state after a user has greeted a server that has just started. -/
def greeted : Server := ⟨["bob-0"], 1, 0, 0, []⟩

theorem sayHello_init : Server.init.sayHello "bob" = some (greeted, "bob-0") := by
  decide +kernel

/-- One user greets the server and has one talk. -/
theorem talks_send_all_words_iff_once :
    chat.Along TalksFully .init [.hello "bob", .talk "bob-0"] := by
  have hnext : chat.next .init (.hello "bob") = some greeted := by
    simp only [chat, sayHello_init, Option.map_some]
  have hregistered : chat.Along Registered .init [.hello "bob", .talk "bob-0"] :=
    .cons (by simp [Registered, sayHello_init]) hnext
      ⟨List.mem_singleton_self _, fun _ _ => trivial⟩
  exact (talks_send_all_words_iff hregistered).mpr (by decide)

/-- The same user has a second talk, which panics. -/
theorem second_talk_panics :
    ∃ s, chat.run .init [.hello "bob", .talk "bob-0"] = some s ∧ "bob-0" ∈ s.allowedNames ∧
      s.talkToMe "bob-0" = none := by
  have hname : "bob-0" ∈ greeted.allowedNames := List.mem_singleton_self _
  have hfresh : Fresh greeted := ⟨rfl, rfl, rfl⟩
  obtain ⟨s, htalk, hspent, hnames⟩ := hfresh.talkToMe_eq hname
  rw [← hnames] at hname
  refine ⟨s, ?_, hname, hspent.talkToMe_eq hname⟩
  simp only [Machine.run, chat, sayHello_init, htalk, Option.map_some, Option.bind_some]

end Hack.Chat
