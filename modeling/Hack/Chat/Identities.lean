import Hack.Chat.Server
import Mathlib.Data.List.Nodup

/-!
# The identities of the chat users

An identity is the name that was asked for, a dash, and the number of identities issued before.
The names are arbitrary and may hold dashes and digits themselves, but the number has no dash in
it, so it is what stands behind the last dash, and no two identities have the same one.
-/

namespace Hack.Chat

variable {s s' : Server} {log : List String} {message identity : String}

/-- What stands behind the last occurrence of an element is determined by the list. -/
theorem eq_of_append_cons_eq {α : Type*} {a : α} {l l' d d' : List α} (hd : a ∉ d) (hd' : a ∉ d')
    (h : l ++ a :: d = l' ++ a :: d') : d = d' := by
  rcases List.append_eq_append_iff.mp h with ⟨m, -, hm⟩ | ⟨m, -, hm⟩
  · cases m with
    | nil => exact (List.cons.inj hm).2
    | cons b m => exact absurd (by rw [(List.cons.inj hm).2]; simp) hd
  · cases m with
    | nil => exact (List.cons.inj hm).2.symm
    | cons b m => exact absurd (by rw [(List.cons.inj hm).2]; simp) hd'

/-- The decimal digits of a number hold no dash. -/
theorem dash_not_mem_toDigits (n : ℕ) : '-' ∉ Nat.toDigits 10 n := fun h =>
  absurd (Nat.isDigit_of_mem_toDigits (by decide) (by decide) h) (by decide)

/-- An identity determines its number, whatever the names are. -/
theorem number_eq_of_identity_eq {name name' : String} {n n' : ℕ}
    (h : name ++ "-" ++ n.repr = name' ++ "-" ++ n'.repr) : n = n' := by
  have hlists : name.toList ++ '-' :: Nat.toDigits 10 n =
      name'.toList ++ '-' :: Nat.toDigits 10 n' := by
    simpa [String.toList_append, Nat.toList_repr] using congrArg String.toList h
  have hdigits := eq_of_append_cons_eq (dash_not_mem_toDigits n) (dash_not_mem_toDigits n') hlists
  have hread := congrArg (Nat.ofDigitChars 10 · 0) hdigits
  rwa [Nat.ofDigitChars_ten_toDigits, Nat.ofDigitChars_ten_toDigits] at hread

/-- The identity that a call returns. -/
def issues (s : Server) : Call → List String
  | .hello name => ((s.sayHello name).map Prod.snd).toList
  | .talk _ => []
  | .ask _ => []

/-- The invariant: the allowed names are the identities issued so far, each with its number. -/
structure Issued (s : Server) (log : List String) : Prop where
  names_eq : s.allowedNames = log
  userIdx_eq : s.userIdx.toInt = log.length
  numbered : ∀ (i : ℕ) identity, log[i]? = some identity → ∃ name, identity = name ++ "-" ++ i.repr

/-- The loop of a talk leaves the users alone. -/
theorem talkLoop_users {sent sent' : List TalkContent} (h : s.talkLoop sent = some (s', sent')) :
    s'.allowedNames = s.allowedNames ∧ s'.userIdx = s.userIdx := by
  fun_induction Server.talkLoop s sent with
  | case1 s sent hend =>
    cases h
    exact ⟨rfl, rfl⟩
  | case2 s sent hend ih =>
    obtain ⟨content, -, h⟩ := Option.bind_eq_some_iff.mp h
    obtain ⟨history, -, h⟩ := Option.bind_eq_some_iff.mp h
    exact ih content history h

/-- A talk leaves the users alone. -/
theorem talkToMe_users {result : Except String (List TalkContent)}
    (h : s.talkToMe message = some (s', result)) :
    s'.allowedNames = s.allowedNames ∧ s'.userIdx = s.userIdx := by
  unfold Server.talkToMe at h
  split_ifs at h
  · cases h
    exact ⟨rfl, rfl⟩
  · cases h
    exact ⟨rfl, rfl⟩
  · obtain ⟨⟨middle, sent⟩, hloop, heq⟩ := Option.map_eq_some_iff.mp h
    cases heq
    exact talkLoop_users hloop

/-- A number that is no longer than a slice is an `int`. -/
theorem formatInt_eq {v : Int64} {n : ℕ} (hv : v.toInt = n) : formatInt v = n.repr := by
  rw [formatInt, hv]
  rfl

/-- A greeting issues the next identity. -/
theorem Issued.hello {name : String} (hissued : Issued s log)
    (h : s.sayHello name = some (s', identity)) : Issued s' (log ++ [identity]) := by
  obtain ⟨hidentity, hroom, rfl⟩ := sayHello_eq_some h
  obtain ⟨hnames, hidx, hnumbered⟩ := hissued
  rw [hnames] at hroom
  refine ⟨by rw [hnames], ?_, fun i id hid => ?_⟩
  · have hone : (1 : Int64).toInt = 1 := by decide
    rw [Int64.toInt_add, hidx, hone, List.length_append, List.length_singleton,
      Int.natCast_add, Int.natCast_one, Int.bmod_eq_of_le (by omega) (by omega)]
  · rcases Nat.lt_trichotomy i log.length with hlt | rfl | hgt
    · rw [List.getElem?_append_left hlt] at hid
      exact hnumbered i id hid
    · rw [List.getElem?_concat_length, Option.some_inj] at hid
      exact ⟨name, by rw [← hid, hidentity, formatInt_eq hidx]⟩
    · rw [List.getElem?_eq_none (by simp; omega)] at hid
      cases hid

/-- Every call keeps the invariant. -/
theorem Issued.next {call : Call} (hissued : Issued s log) (h : chat.next s call = some s') :
    Issued s' (log ++ issues s call) := by
  cases call with
  | hello name =>
    obtain ⟨⟨s', identity⟩, hhello, rfl⟩ := Option.map_eq_some_iff.mp h
    simpa only [issues, hhello, Option.map_some, Option.toList_some] using hissued.hello hhello
  | talk message =>
    obtain ⟨⟨s', result⟩, htalk, rfl⟩ := Option.map_eq_some_iff.mp h
    obtain ⟨hnames, hidx⟩ := talkToMe_users htalk
    rw [issues, List.append_nil]
    exact ⟨hnames.trans hissued.names_eq, hidx ▸ hissued.userIdx_eq, hissued.numbered⟩
  | ask index =>
    obtain ⟨answer, -, rfl⟩ := Option.map_eq_some_iff.mp h
    rwa [issues, List.append_nil]

/-- The invariant holds after any calls. -/
theorem issued_of_reachable (hreach : (chat.observed issues).Reachable (s, log)) :
    Issued s log := by
  refine hreach.observed_invariant Issued ?_ ?_
  · rintro s rfl
    exact ⟨rfl, rfl, fun i identity h => by simp at h⟩
  · intro s log call s' hissued hcond hstep
    exact hissued.next hstep

/-- Identities with their numbers are distinct. -/
theorem Issued.nodup (hissued : Issued s log) : log.Nodup := by
  rw [List.nodup_iff_getElem?_ne_getElem?]
  intro i j hij hj heq
  have hidentity : log[j]? = some log[j] := List.getElem?_eq_getElem hj
  obtain ⟨name, hname⟩ := hissued.numbered i log[j] (heq.trans hidentity)
  obtain ⟨name', hname'⟩ := hissued.numbered j log[j] hidentity
  have hnumber := number_eq_of_identity_eq (hname.symm.trans hname')
  omega

/-- After any calls, the identities that were returned are pairwise distinct, and each of them
passes both checks of a talk. -/
theorem identities_distinct_and_accepted (hreach : (chat.observed issues).Reachable (s, log)) :
    log.Nodup ∧ ∀ identity ∈ log,
      s.allowedNames.length ≠ 0 ∧ hit identity s.allowedNames = true := by
  have hissued := issued_of_reachable hreach
  refine ⟨hissued.nodup, fun identity hmem => ?_⟩
  rw [← hissued.names_eq] at hmem
  exact ⟨Nat.ne_of_gt (List.length_pos_of_mem hmem), (hit_iff _).mpr hmem⟩

/-- The second user asks for a name that looks like the identity of the first one. -/
theorem identities_distinct_and_accepted_two :
    ∃ s log, (chat.observed issues).Reachable (s, log) ∧ log = ["bob-0", "bob-0-1"] ∧ log.Nodup ∧
      hit "bob-0" s.allowedNames = true := by
  have hrun : (chat.observed issues).run (.init, []) [.hello "bob", .hello "bob-0"] =
      some (⟨["bob-0", "bob-0-1"], 2, 0, 0, []⟩, ["bob-0", "bob-0-1"]) := by decide +kernel
  have hstart : (chat.observed issues).Reachable (.init, []) := .start ⟨rfl, rfl⟩
  have hreach := hstart.of_run hrun
  obtain ⟨hnodup, haccepted⟩ := identities_distinct_and_accepted hreach
  exact ⟨_, _, hreach, rfl, hnodup, (haccepted "bob-0" (by simp)).2⟩

end Hack.Chat
