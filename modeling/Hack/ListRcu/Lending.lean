import Hack.ListRcu.Safety

/-!
# Lending a book

`borrow_book` and `return_book` decide by the flag of a book that they read without the lock. The
log of the changes still never lends a book twice: for each identity, as long as a book is only
added when there is none of the same identity in the list, every successful borrowing comes after
the book was added or returned, every successful return after a borrowing, and the flag in the list
is the one that the log says.
-/

namespace Hack.ListRcu

open RcuList

/-- The flag of the one book with an identity, `none` when there is no such book, after a change;
no result when the change does not fit the flag. -/
def lend (id : ℤ) (flag : Option Bool) : Event → Option (Option Bool)
  | .added b =>
    if b.id = id then if flag = none then some (some false) else none else some flag
  | .updated i borrow =>
    if i = id then if flag = some (!borrow) then some (some borrow) else none else some flag
  | .deleted i => if i = id then if flag.isSome then some none else none else some flag

/-- The flag after a log of changes. -/
def lending (id : ℤ) (log : List Event) : Option (Option Bool) := log.foldlM (lend id) none

/-- A book with an identity is added only when the log leaves none. -/
def addsAbsent (id : ℤ) (log : List Event) : Event → Bool
  | .added b => b.id ≠ id || lending id log = some none
  | _ => true

/-- The flags of the books with an identity. -/
def flags (id : ℤ) (shelf : List Book) : List Bool :=
  (shelf.filter fun b => b.id = id).map Book.borrow

/-- The flags of a list that is split at a book. -/
theorem flags_append_cons (id : ℤ) (left right : List Book) (b : Book) :
    flags id (left ++ b :: right) =
      flags id left ++ (if b.id = id then [b.borrow] else []) ++ flags id right := by
  unfold flags
  split_ifs with hid <;> simp [List.filter_append, hid]

/-- The flags of two lists. -/
theorem flags_append (id : ℤ) (left right : List Book) :
    flags id (left ++ right) = flags id left ++ flags id right := by
  simp [flags]

/-- Where there is at most one flag and one is known, there is no other. -/
theorem toList_eq_of_append {left right : List Bool} {x : Bool} {flag : Option Bool}
    (h : left ++ [x] ++ right = flag.toList) : left = [] ∧ right = [] ∧ flag = some x := by
  have hlength := congrArg List.length h
  cases flag with
  | none => simp at hlength
  | some y =>
    simp only [List.length_append, List.length_singleton, Option.toList_some] at hlength
    obtain rfl : left = [] := List.eq_nil_of_length_eq_zero (by omega)
    obtain rfl : right = [] := List.eq_nil_of_length_eq_zero (by omega)
    simp_all

/-- A change of the contents fits the flag that was kept, and keeps it. -/
theorem ShelfStep.lend {shelf shelf' : List Book} {events : List Event} {id : ℤ}
    {flag : Option Bool} (hstep : ShelfStep shelf events shelf')
    (hflag : flags id shelf = flag.toList)
    (hadd : ∀ b, .added b ∈ events → b.id = id → flag = none) :
    ∃ flag', events.foldlM (ListRcu.lend id) flag = some flag' ∧
      flags id shelf' = flag'.toList := by
  cases hstep with
  | quiet => exact ⟨flag, rfl, hflag⟩
  | added _ b hb =>
    by_cases hid : b.id = id
    · obtain rfl := hadd b List.mem_cons_self hid
      refine ⟨some false, by simp [ListRcu.lend, hid], ?_⟩
      rw [← List.nil_append (b :: shelf), flags_append_cons, if_pos hid, hflag, hb]
      rfl
    · refine ⟨flag, by simp [ListRcu.lend, hid], ?_⟩
      rw [← List.nil_append (b :: shelf), flags_append_cons, if_neg hid, hflag]
      rfl
  | @updated left right b borrow hb =>
    rw [flags_append_cons] at hflag
    by_cases hid : b.id = id
    · rw [if_pos hid] at hflag
      obtain ⟨hleft, hright, rfl⟩ := toList_eq_of_append hflag
      refine ⟨some borrow, by simp [ListRcu.lend, hid, hb], ?_⟩
      rw [flags_append_cons, if_pos hid, hleft, hright]
      rfl
    · refine ⟨flag, by simp [ListRcu.lend, hid], ?_⟩
      rw [if_neg hid] at hflag
      rw [flags_append_cons, if_neg hid, hflag]
  | deleted left right b =>
    rw [flags_append_cons] at hflag
    by_cases hid : b.id = id
    · rw [if_pos hid] at hflag
      obtain ⟨hleft, hright, rfl⟩ := toList_eq_of_append hflag
      refine ⟨none, by simp [ListRcu.lend, hid], ?_⟩
      rw [flags_append, hleft, hright]
      rfl
    · refine ⟨flag, by simp [ListRcu.lend, hid], ?_⟩
      rw [if_neg hid, List.append_nil] at hflag
      rw [flags_append, hflag]

/-- For each identity, in every run in which a book is added only when the list has none of this
identity, the successful calls take turns as a single copy allows, and the flag that the list
holds is the one that the log says. -/
theorem lending_takes_turns (id : ℤ) {s : State} {log : List Event}
    (hreach : (machine.observed observe).ReachableUnder
      (fun t label => (observe t.1 label).all (addsAbsent id t.2) = true) (s, log)) :
    ∃ flag order, lending id log = some flag ∧ Path s.next books order books ∧
      flags id (order.filterMap s.book) = flag.toList := by
  have hinv := hreach.observed_invariant
    (fun s log => ∃ flag shelf, lending id log = some flag ∧ Stands s shelf ∧
      flags id shelf = flag.toList) ?_ ?_
  · obtain ⟨flag, shelf, hlending, ⟨order, viewers, hinv⟩, hflag⟩ := hinv
    refine ⟨flag, order, hlending, hinv.holds.sound.path, ?_⟩
    rw [hinv.holds.filterMap_book, hflag]
  · rintro s ⟨n, rfl⟩
    exact ⟨none, [], rfl, stands_initial n, rfl⟩
  · rintro s log label s' ⟨flag, shelf, hlending, hstands, hflag⟩ hadd hnext
    obtain ⟨shelf', hstep, hstands'⟩ := hstands.next hnext
    obtain ⟨flag', hfold, hflag'⟩ := hstep.lend hflag fun b hb hid => by
      have habsent := List.all_eq_true.mp hadd _ hb
      simpa [addsAbsent, hid, hlending] using habsent
    refine ⟨flag', shelf', ?_, hstands', hflag'⟩
    rw [lending, List.foldlM_append]
    rw [lending] at hlending
    rw [hlending]
    exact hfold

/-- A thread adds a book and borrows it, and another one is about to return it. -/
def lendingRun : List Label :=
  [.addBook 0 7 ['a'] ['b'] (some 2), .step 0, .lookup 0 7 (borrowBook true), .step 0,
    .kzalloc 0 (some 3), .step 0, .lookup 1 7 (returnBook true), .step 1, .kzalloc 1 (some 4)]

/-- After that run the book is lent, by the log and in the list. -/
theorem lending_takes_turns_lendingRun : ∃ s log, (machine.observed observe).ReachableUnder
        (fun t label => (observe t.1 label).all (addsAbsent 7 t.2) = true) (s, log) ∧
      lending 7 log = some (some true) ∧
      ∃ flag order, lending 7 log = some flag ∧ Path s.next books order books ∧
        flags 7 (order.filterMap s.book) = flag.toList := by
  have hrun : ((((machine.observed observe).guarded fun t label =>
      (observe t.1 label).all (addsAbsent 7 t.2)).run (initial 2, []) lendingRun).any fun t =>
        lending 7 t.2 = some (some true)) = true := by decide +kernel
  have hstart : (machine.observed observe).ReachableUnder
      (fun t label => (observe t.1 label).all (addsAbsent 7 t.2) = true) (initial 2, []) :=
    .start ⟨⟨2, rfl⟩, rfl⟩
  obtain ⟨⟨s, log⟩, hrun, hlent⟩ := (Option.any_eq_true _ _).mp hrun
  have hreach := hstart.of_guarded_run (fun _ _ => id) hrun
  exact ⟨s, log, hreach, of_decide_eq_true hlent, lending_takes_turns 7 hreach⟩

end Hack.ListRcu
