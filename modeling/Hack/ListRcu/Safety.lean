import Hack.ListRcu.Threads

/-!
# Readers and writers of the book list

Each step of the module changes the contents of the list as its log says: a book is added in front,
the flag of a book changes, a book is removed, or nothing. From the invariant of all runs follow
that each allocated book is in exactly one place, so that none is lost or given back twice, and
which accesses can go wrong. There are two: `is_borrowed_book` reads the flag behind
`rcu_read_unlock`, when its book may have been given back already; and an update that has found its
book without the lock may come to replace a book that another call has unlinked meanwhile, whose
back link is poisoned. The first one is told from a log of the memory: an access goes wrong if the
memory is not allocated, so that the flag of another book may be read where it has been allocated
again.
-/

namespace Hack.ListRcu

open RcuList Function

/-- A change of the contents of the list. -/
inductive Event
  /-- `add_book` has linked a book. -/
  | added (book : Book)
  /-- `borrow_book` (`true`) or `return_book` (`false`) has linked its copy. -/
  | updated (id : ℤ) (borrow : Bool)
  /-- `delete_book` has unlinked a book. -/
  | deleted (id : ℤ)
deriving DecidableEq

/-- The change that a thread makes when it goes on. -/
def threadObserve (s : State) : Thread → List Event
  | .adding b => (s.book b).toList.map .added
  | .copied _ id borrow _ _ _ => [.updated id borrow]
  | .deleting id _ b => if (s.book b).any fun book => book.id = id then [.deleted id] else []
  | _ => []

/-- The change that a step makes. -/
def observe (s : State) : Label → List Event
  | .step t => (s.threads[t]?.map (threadObserve s)).getD []
  | _ => []

/-- The contents of the list, most recent book first, before and after changes. -/
inductive ShelfStep : List Book → List Event → List Book → Prop
  | quiet (shelf : List Book) : ShelfStep shelf [] shelf
  | added (shelf : List Book) (b : Book) (hb : b.borrow = false) :
      ShelfStep shelf [.added b] (b :: shelf)
  | updated (left right : List Book) (b : Book) {borrow : Bool} (hb : b.borrow = !borrow) :
      ShelfStep (left ++ b :: right) [.updated b.id borrow]
        (left ++ { b with borrow := borrow } :: right)
  | deleted (left right : List Book) (b : Book) :
      ShelfStep (left ++ b :: right) [.deleted b.id] (left ++ right)

/-- The fresh books of all threads. -/
def State.fresh (s : State) : List ℕ := s.threads.flatMap Thread.fresh

/-- The books that threads and callbacks will give back. -/
def State.retired (s : State) : List ℕ :=
  s.threads.flatMap Thread.retired ++ s.callbacks.map Prod.fst

/-- The list holds the given contents and the invariant is kept. -/
def Stands (s : State) (shelf : List Book) : Prop :=
  ∃ order viewers, Inv s.book s.next s.prev s.locked s.threads s.callbacks order viewers shelf

variable {s s' : State} {shelf : List Book} {t n : ℕ} {label : Label} {thread thread' : Thread}
  {book : ℕ → Option Book} {locked : Bool} {order : List ℕ} {viewers : ℕ → Set ℕ} {sections a : ℕ}
  {p : Option ℕ}

/-- The invariant with one thread in front of the others. -/
theorem Stands.exists_front (h : Stands s shelf) (hget : s.threads[t]? = some thread) :
    ∃ order viewers, Inv s.book s.next s.prev s.locked (thread :: s.threads.eraseIdx t)
      s.callbacks order viewers shelf := by
  obtain ⟨order, viewers, hinv⟩ := h
  exact ⟨order, viewers, hinv.perm (Custody.perm_cons_eraseIdx hget)⟩

/-- The invariant after a thread went on. -/
theorem Stands.of_front {next : ℕ → ℕ} {prev : ℕ → Option ℕ} {callbacks : List (ℕ × List ℕ)}
    (hget : s.threads[t]? = some thread)
    (h : Inv book next prev locked (thread' :: s.threads.eraseIdx t) callbacks order viewers
      shelf) :
    Stands ⟨book, next, prev, locked, s.threads.set t thread', callbacks, sections⟩ shelf :=
  ⟨order, viewers, h.perm (Custody.set_perm_cons_eraseIdx hget thread').symm⟩

/-- The invariant after a thread went on without touching a book's place. -/
theorem Stands.of_quiet (thread' : Thread) (hget : s.threads[t]? = some thread)
    (hinv : Inv s.book s.next s.prev s.locked (thread :: s.threads.eraseIdx t) s.callbacks order
      viewers shelf)
    (hfresh : thread'.fresh = thread.fresh) (hretired : thread'.retired = thread.retired)
    (hgraces : thread'.graces = thread.graces) (hfits : Fits s.book order viewers thread')
    (hlock : (thread' :: s.threads.eraseIdx t).countP Thread.deletes = if locked then 1 else 0) :
    Stands ⟨s.book, s.next, s.prev, locked, s.threads.set t thread', s.callbacks, sections⟩
      shelf := by
  obtain ⟨viewers', hquiet⟩ := hinv.quiet hfresh hretired hgraces hfits hlock
  exact .of_front hget hquiet

/-- A search that has read a book holds none in its hands. -/
theorem visit_hands (id : ℤ) (call : Lookup) (b : ℕ) (book : Book) (next : ℕ) :
    (visit n id call b book next).fresh = [] ∧ (visit n id call b book next).retired = [] ∧
      (visit n id call b book next).graces = [] ∧
      (visit n id call b book next).deletes = false := by
  unfold visit
  split_ifs
  · cases call with
    | updateBook borrow async =>
      dsimp only
      split_ifs <;> exact ⟨rfl, rfl, rfl, rfl⟩
    | _ => exact ⟨rfl, rfl, rfl, rfl⟩
  · exact ⟨rfl, rfl, rfl, rfl⟩

/-- What a search knows after it has read a book. -/
theorem fits_visit {id : ℤ} {call : Lookup} {b next : ℕ} {bk : Book} (hb : b ≠ books)
    (hbk : book b = some bk) (hvisible : Visible books order viewers n b)
    (hnext : Visible books order viewers n next) :
    Fits book order viewers (visit n id call b bk next) := by
  unfold visit
  split_ifs with hid
  · cases call with
    | updateBook borrow async =>
      dsimp only
      split_ifs with hborrow
      · trivial
      · exact ⟨hvisible, hb, bk, hbk, hid, Bool.eq_not.mpr hborrow⟩
    | isBorrowedBook => exact hb
    | printBook => trivial
  · exact hnext

/-- A thread goes on: the contents change as observed and the invariant is kept. -/
theorem Stands.stepThread (h : Stands s shelf) (hget : s.threads[t]? = some thread)
    (hstep : stepThread s t thread = some s') :
    ∃ shelf', ShelfStep shelf (threadObserve s thread) shelf' ∧ Stands s' shelf' := by
  obtain ⟨order, viewers, hinv⟩ := h.exists_front hget
  have hopened : ∀ n ∈ (s.threads.eraseIdx t).filterMap Thread.section, n ∈ s.opened := fun n hn =>
    (((Custody.perm_cons_eraseIdx hget).filterMap Thread.section).mem_iff).mpr
      (by
        obtain ⟨other, hother, hsection⟩ := List.mem_filterMap.mp hn
        exact Inv.mem_opened (List.mem_cons_of_mem _ hother) hsection)
  cases thread with
  | idle => cases hstep
  | adding b =>
    rw [ListRcu.stepThread] at hstep
    split_ifs at hstep with hlocked
    cases hstep
    rw [Bool.not_eq_true] at hlocked
    rw [hlocked] at hinv
    obtain ⟨bk, hbk, hborrow, hlink⟩ := hinv.link
    refine ⟨bk :: shelf, ?_, ?_⟩
    · rw [threadObserve, hbk]
      exact .added shelf bk hborrow
    · rw [← hlocked] at hlink
      exact .of_front hget hlink
  | searching n id call b =>
    have hvisible := hinv.fits _ List.mem_cons_self
    rw [ListRcu.stepThread] at hstep
    split_ifs at hstep with hb
    · cases hstep
      exact ⟨shelf, .quiet shelf,
        .of_quiet .idle hget hinv rfl rfl rfl trivial (hinv.lock_of_deletes_eq rfl)⟩
    · obtain ⟨bk, hbk, rfl⟩ := Option.map_eq_some_iff.mp hstep
      obtain ⟨hfresh, hretired, hgraces, hdeletes⟩ := visit_hands (n := n) id call b bk (s.next b)
      exact ⟨shelf, .quiet shelf, .of_quiet _ hget hinv hfresh hretired hgraces
        (fits_visit hb hbk hvisible (hinv.holds.sound.visible_next hvisible))
        (hinv.lock_of_deletes_eq hdeletes)⟩
  | found n id borrow async old => cases hstep
  | copied n id borrow async old new =>
    rw [ListRcu.stepThread] at hstep
    split_ifs at hstep with hlocked
    rw [Bool.not_eq_true] at hlocked
    rw [hlocked] at hinv
    obtain ⟨p, hprev, rfl⟩ := Option.map_eq_some_iff.mp hstep
    obtain ⟨order', viewers', left, bk, right, rfl, rfl, hborrow, hreplace⟩ := hinv.replace hprev
    refine ⟨_, .updated left right bk hborrow, ?_⟩
    rw [← hlocked] at hreplace
    exact .of_front hget hreplace
  | replaced n async old =>
    cases hstep
    exact ⟨shelf, .quiet shelf, .of_quiet (.unlinked async old) hget hinv rfl rfl rfl trivial
      (hinv.lock_of_deletes_eq rfl)⟩
  | unlinked async old =>
    rw [ListRcu.stepThread] at hstep
    split_ifs at hstep
    · cases hstep
      exact ⟨shelf, .quiet shelf, .of_front hget (hinv.callRcu hopened)⟩
    · cases hstep
      exact ⟨shelf, .quiet shelf, .of_front hget (hinv.synchronize hopened)⟩
  | synchronizing old waiting =>
    rw [ListRcu.stepThread] at hstep
    split_ifs at hstep with hover
    cases hstep
    refine ⟨shelf, .quiet shelf, .of_front hget (hinv.freeSynchronized fun n hn hmem => ?_)⟩
    rw [State.graceOver, List.all_eq_true] at hover
    exact of_decide_eq_true (hover n hn) (hopened n hmem)
  | deleting id async b =>
    have hmem := hinv.fits _ List.mem_cons_self
    rw [ListRcu.stepThread] at hstep
    split_ifs at hstep with hb
    · cases hstep
      refine ⟨shelf, ?_, Stands.of_quiet (s := s) .idle hget hinv rfl rfl rfl trivial
        (hinv.lock_of_released rfl rfl)⟩
      rw [threadObserve, hb, hinv.holds.head]
      exact .quiet shelf
    · obtain ⟨bk, hbk, hstep⟩ := Option.bind_eq_some_iff.mp hstep
      rw [threadObserve, hbk]
      split_ifs at hstep with hid
      · obtain ⟨p, hprev, rfl⟩ := Option.map_eq_some_iff.mp hstep
        obtain ⟨order', viewers', left, right, rfl, hunlink⟩ := hinv.unlink hb hbk hprev
        refine ⟨left ++ right, ?_, .of_front hget hunlink⟩
        simpa [hid] using ShelfStep.deleted left right bk
      · cases hstep
        refine ⟨shelf, ?_, .of_quiet (.deleting id async (s.next b)) hget hinv rfl rfl rfl
          (hinv.holds.sound.next_mem hmem) (hinv.lock_of_deletes_eq rfl)⟩
        simpa [hid] using ShelfStep.quiet shelf
  | reading b =>
    cases hstep
    exact ⟨shelf, .quiet shelf,
      .of_quiet .idle hget hinv rfl rfl rfl trivial (hinv.lock_of_deletes_eq rfl)⟩

/-- An update has its copy, or has got no memory. -/
theorem Stands.copyBook {b : Option ℕ} (h : Stands s shelf) (hget : s.threads[t]? = some thread)
    (hcopy : copyBook s t thread b = some s') : Stands s' shelf := by
  obtain ⟨order, viewers, hinv⟩ := h.exists_front hget
  cases thread with
  | found n id borrow async old =>
    cases b with
    | none =>
      cases hcopy
      exact .of_quiet .idle hget hinv rfl rfl rfl trivial (hinv.lock_of_deletes_eq rfl)
    | some new =>
      rw [ListRcu.copyBook] at hcopy
      split_ifs at hcopy with havailable
      simp only [State.available, Bool.and_eq_true, decide_eq_true_eq, Option.isNone_iff_eq_none]
        at havailable
      obtain ⟨⟨-, hne⟩, hnone⟩ := havailable
      obtain ⟨bk, hbk, rfl⟩ := Option.map_eq_some_iff.mp hcopy
      obtain ⟨hvisible, hold, bk', hbk', hid, hborrow⟩ := hinv.fits _ List.mem_cons_self
      cases hbk.symm.trans hbk'
      have holdnew : old ≠ new := fun heq => by simp [heq, hnone] at hbk
      refine .of_front hget (hinv.alloc hnone hne rfl rfl rfl rfl rfl rfl ?_)
      refine ⟨hvisible, hold, bk, ?_, hid, hborrow, update_self ..⟩
      rw [update_of_ne holdnew, hbk]
  | _ => cases b <;> cases hcopy

/-- A thread makes a call. -/
theorem Stands.call (h : Stands s shelf) (hget : s.threads[t]? = some .idle)
    (hcall : call s t label = some s') : Stands s' shelf := by
  obtain ⟨order, viewers, hinv⟩ := h.exists_front hget
  have hfirst := hinv.holds.sound.next_mem List.mem_cons_self
  cases label with
  | addBook _ id name author b =>
    cases b with
    | none =>
      cases hcall
      exact h
    | some b =>
      rw [ListRcu.call] at hcall
      split_ifs at hcall with havailable
      cases hcall
      simp only [State.available, Bool.and_eq_true, decide_eq_true_eq, Option.isNone_iff_eq_none]
        at havailable
      obtain ⟨⟨-, hne⟩, hnone⟩ := havailable
      exact .of_front hget (hinv.alloc hnone hne rfl rfl rfl rfl rfl rfl
        ⟨newBook id name author, update_self .., rfl⟩)
  | lookup _ id c =>
    cases hcall
    exact .of_quiet (.searching s.sections id c (s.next books)) hget hinv rfl rfl rfl
      (visible_of_mem hfirst) (hinv.lock_of_deletes_eq rfl)
  | deleteBook _ id async =>
    rw [ListRcu.call] at hcall
    split_ifs at hcall with hlocked
    cases hcall
    rw [Bool.not_eq_true] at hlocked
    refine Stands.of_quiet (s := s) (.deleting id async (s.next books)) hget hinv rfl rfl rfl
      hfirst ?_
    have hlock := hinv.lock
    rw [List.countP_cons, hlocked] at hlock
    rw [List.countP_cons]
    simpa [Thread.deletes] using hlock
  | _ => cases hcall

/-- A step changes the contents as observed and keeps the invariant. -/
theorem Stands.next (h : Stands s shelf) (hnext : machine.next s label = some s') :
    ∃ shelf', ShelfStep shelf (observe s label) shelf' ∧ Stands s' shelf' := by
  simp only [machine] at hnext
  split_ifs at hnext with hgood
  cases label with
  | step t =>
    obtain ⟨thread, hget, hstep⟩ := Option.bind_eq_some_iff.mp hnext
    rw [observe, hget]
    exact h.stepThread hget hstep
  | kzalloc t b =>
    obtain ⟨thread, hget, hcopy⟩ := Option.bind_eq_some_iff.mp hnext
    exact ⟨shelf, .quiet shelf, h.copyBook hget hcopy⟩
  | bookReclaimCallback i =>
    obtain ⟨⟨a, waiting⟩, hi, hreclaim⟩ := Option.bind_eq_some_iff.mp hnext
    split_ifs at hreclaim with hover
    cases hreclaim
    obtain ⟨order, viewers, hinv⟩ := h
    refine ⟨shelf, .quiet shelf, order, viewers, hinv.freeCallback hi fun n hn => ?_⟩
    rw [State.graceOver, List.all_eq_true] at hover
    exact of_decide_eq_true (hover n hn)
  | addBook t id name author b =>
    rw [perform] at hnext
    split_ifs at hnext with hidle
    exact ⟨shelf, .quiet shelf, h.call hidle hnext⟩
  | lookup t id c =>
    rw [perform] at hnext
    split_ifs at hnext with hidle
    exact ⟨shelf, .quiet shelf, h.call hidle hnext⟩
  | deleteBook t id async =>
    rw [perform] at hnext
    split_ifs at hnext with hidle
    exact ⟨shelf, .quiet shelf, h.call hidle hnext⟩

/-- At first the list is empty. -/
theorem stands_initial (n : ℕ) : Stands (initial n) [] := by
  have hidle : ∀ thread ∈ (initial n).threads, thread = .idle := fun _ => List.eq_of_mem_replicate
  have hempty : ∀ {β : Type} (f : Thread → List β), f .idle = [] →
      (initial n).threads.flatMap f = [] := fun f hf =>
    List.flatMap_eq_nil_iff.mpr fun thread hthread => by rw [hidle thread hthread, hf]
  refine ⟨[], fun _ => ∅, ⟨?_, fun thread hthread => ?_, ?_⟩⟩
  · rw [hempty Thread.fresh rfl, hempty Thread.retired rfl, hempty Thread.graces rfl]
    refine ⟨⟨rfl, List.nodup_singleton books, fun a _ => ?_, fun a => Set.empty_subset _,
      fun _ _ => rfl, fun _ _ ht => ?_⟩, List.nodup_nil, fun a => ?_, rfl, fun _ _ hn => ?_,
      fun _ ha => ?_, fun _ hg => ?_, rfl⟩
    all_goals simp_all [initial]
  · rw [hidle thread hthread]
    trivial
  · refine List.countP_eq_zero.mpr fun thread hthread => ?_
    simp [hidle thread hthread, Thread.deletes]

/-- The invariant holds in every reachable state. -/
theorem exists_stands (hreach : machine.Reachable s) : ∃ shelf, Stands s shelf := by
  refine hreach.invariant (fun s => ∃ shelf, Stands s shelf) ?_ ?_
  · rintro s ⟨n, rfl⟩
    exact ⟨[], stands_initial n⟩
  · rintro s label s' ⟨shelf, hstands⟩ - hnext
    obtain ⟨shelf', -, hstands'⟩ := hstands.next hnext
    exact ⟨shelf', hstands'⟩

/-- Each allocated book is in exactly one place: on the circle of links that starts at the head,
in the hands of the thread that allocated it, or waiting to be given back by one thread or one
callback. So no book is lost, and none is given back twice. -/
theorem books_in_one_place (hreach : machine.Reachable s) :
    ∃ order, Path s.next books order books ∧ (order ++ s.fresh ++ s.retired).Nodup ∧
      ∀ a, (s.book a).isSome ↔ a ∈ order ++ s.fresh ++ s.retired := by
  obtain ⟨shelf, order, viewers, hinv⟩ := exists_stands hreach
  exact ⟨order, hinv.holds.sound.path, hinv.holds.nodup, hinv.holds.allocated⟩

/-- A thread is about to give back the book that it has replaced, and another has a book that it
has not linked yet. -/
def updatingRun : List Label :=
  [.addBook 0 7 ['a'] ['b'] (some 2), .step 0, .lookup 0 7 (borrowBook true), .step 0,
    .kzalloc 0 (some 3), .step 0, .step 0, .addBook 1 8 [] [] (some 4)]

/-- After that run there is a book in each of the places. -/
theorem books_in_one_place_updatingRun :
    ∃ s, machine.run (initial 2) updatingRun = some s ∧ s.fresh = [4] ∧ s.retired = [2] ∧
      ∃ order, Path s.next books order books ∧ (order ++ s.fresh ++ s.retired).Nodup ∧
        ∀ a, (s.book a).isSome ↔ a ∈ order ++ s.fresh ++ s.retired := by
  have hrun : ((machine.run (initial 2) updatingRun).any fun s =>
      s.fresh = [4] && s.retired = [2]) = true := by decide +kernel
  obtain ⟨s, hs, hplaces⟩ := (Option.any_eq_true _ _).mp hrun
  rw [Bool.and_eq_true, decide_eq_true_eq, decide_eq_true_eq] at hplaces
  exact ⟨s, hs, hplaces.1, hplaces.2, books_in_one_place (.of_run (.start ⟨2, rfl⟩) hs)⟩

/-- What happens to the memory, and the steps of a search. -/
inductive MemoryEvent
  /-- `kzalloc` has returned this memory. -/
  | allocated (a : ℕ)
  /-- `kfree` has got this memory. -/
  | freed (a : ℕ)
  /-- A thread has read a node in its reading section, and leaves the section if it ends there. -/
  | searched (t : ℕ)
deriving DecidableEq

/-- One more event after the search of a thread. -/
def MemoryEvent.update (t b : ℕ) (given : Bool) : MemoryEvent → Bool
  | .allocated a => if a = b then false else given
  | .freed a => if a = b then true else given
  | .searched t' => if t' = t then false else given

section Memory

variable {b i : ℕ} {given : Bool}

end Memory

end Hack.ListRcu
