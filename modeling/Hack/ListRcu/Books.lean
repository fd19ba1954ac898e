import Hack.Machine
import Mathlib.Data.Int.Notation

/-!
# The book list of the RCU module

This file embeds `ksync-rcu/list_rcu.c`. The books are nodes of a circular list. A reader walks
over it between `rcu_read_lock` and `rcu_read_unlock`, without the spin lock. `borrow_book` and
`return_book` also search as readers; they then put a changed copy in the place of the book they
found, under the spin lock, and give the old book back after a grace period, either at once
(`synchronize_rcu`) or by a callback (`call_rcu`). `delete_book` searches and unlinks under the
lock.

Any number of threads make any calls. A step is what one thread does up to its next access to
memory that another thread may write: one node of a search, an allocation, one section under the
lock, the start or the end of a grace period. Each reading section gets a number of its own, and a
grace period waits for the sections that were open when it began. `touches` lists the pointers
that a step dereferences. A run ends where one of them is poisoned or leads to memory that is not
allocated.
-/

namespace Hack.ListRcu

open Function

/-- `struct book` without its links. -/
structure Book where
  id : ℤ
  name : List Char
  author : List Char
  borrow : Bool
deriving DecidableEq

/-- The null pointer. -/
def null : ℕ := 0

/-- The address of the list head `books`. -/
def books : ℕ := 1

/-- The size of the arrays `name` and `author`. -/
def textSize : ℕ := 64

/-- The calls that search as readers. The two updates differ in the flag that they store and in
the flag that they refuse. -/
inductive Lookup
  /-- `is_borrowed_book`. -/
  | isBorrowedBook
  /-- `print_book`. -/
  | printBook
  /-- `borrow_book` stores `true`, `return_book` stores `false`. -/
  | updateBook (borrow async : Bool)
deriving DecidableEq

/-- `borrow_book`. -/
def borrowBook (async : Bool) : Lookup := .updateBook true async

/-- `return_book`. -/
def returnBook (async : Bool) : Lookup := .updateBook false async

/-- Where a thread is. -/
inductive Thread
  /-- It is in none of the calls. -/
  | idle
  /-- In `add_book`, with the new book filled. -/
  | adding (b : ℕ)
  /-- In a reading section, about to look at a node. -/
  | searching (n : ℕ) (id : ℤ) (call : Lookup) (b : ℕ)
  /-- In an update, with the book found. -/
  | found (n : ℕ) (id : ℤ) (borrow async : Bool) (old : ℕ)
  /-- In an update, with the copy made. -/
  | copied (n : ℕ) (id : ℤ) (borrow async : Bool) (old new : ℕ)
  /-- In an update, with the copy linked, before `rcu_read_unlock`. -/
  | replaced (n : ℕ) (async : Bool) (old : ℕ)
  /-- With a book unlinked, outside of the reading section. -/
  | unlinked (async : Bool) (old : ℕ)
  /-- In `synchronize_rcu`, with the sections it waits for. -/
  | synchronizing (old : ℕ) (waiting : List ℕ)
  /-- In `delete_book` under the lock, about to look at a node. -/
  | deleting (id : ℤ) (async : Bool) (b : ℕ)
  /-- In `is_borrowed_book` behind `rcu_read_unlock`, about to read `b->borrow`. -/
  | reading (b : ℕ)
deriving DecidableEq

/-- The open reading section of a thread. -/
def Thread.section : Thread → Option ℕ
  | .searching n .. | .found n .. | .copied n .. | .replaced n .. => some n
  | _ => none

/-- The allocated books, the links of all nodes (a poisoned one is `none`), the spin lock, the
threads, the callbacks with the sections they wait for, and the number of sections so far. -/
structure State where
  book : ℕ → Option Book
  next : ℕ → ℕ
  prev : ℕ → Option ℕ
  locked : Bool
  threads : List Thread
  callbacks : List (ℕ × List ℕ)
  sections : ℕ

namespace State

/-- The open reading sections. -/
def opened (s : State) : List ℕ := s.threads.filterMap Thread.section

/-- A thread goes on. -/
def put (s : State) (t : ℕ) (thread : Thread) : State :=
  { s with threads := s.threads.set t thread }

/-- Memory that `kzalloc` may return. -/
def available (s : State) (a : ℕ) : Bool := a ≠ null && a ≠ books && (s.book a).isNone

/-- New memory with a book in it and with the given links. -/
def allocate (s : State) (a : ℕ) (book : Book) (next : ℕ) (prev : Option ℕ) : State :=
  { s with
    book := update s.book a (some book)
    next := update s.next a next
    prev := update s.prev a prev }

/-- `kfree`. -/
def kfree (s : State) (a : ℕ) : State := { s with book := update s.book a none }

/-- `list_add_rcu(&b->node, &books)`. -/
def listAddRcu (s : State) (b : ℕ) : State :=
  { s with
    next := update (update s.next b (s.next books)) books b
    prev := update (update s.prev b (some books)) (s.next books) (some b) }

/-- `list_replace_rcu(&old->node, &new->node)`, where `p` is `old->prev`. -/
def listReplaceRcu (s : State) (old new p : ℕ) : State :=
  { s with
    next := update (update s.next new (s.next old)) p new
    prev := update (update (update s.prev new (some p)) (s.next old)
      (some new)) old none }

/-- `list_del_rcu(&old->node)`, where `p` is `old->prev`. -/
def listDelRcu (s : State) (old p : ℕ) : State :=
  { s with
    next := update s.next p (s.next old)
    prev := update (update s.prev (s.next old) (some p)) old none }

/-- A pointer may be dereferenced: it is not poisoned and leads to the head or to an allocated
book, which may be another one than when the pointer was read. -/
def good (s : State) (p : Option ℕ) : Bool := p.any fun a => a = books || (s.book a).isSome

end State

/-- How a search goes on after it has read a book. -/
def visit (n : ℕ) (id : ℤ) (call : Lookup) (b : ℕ) (book : Book) (next : ℕ) : Thread :=
  if book.id = id then
    match call with
    | .isBorrowedBook => .reading b
    | .printBook => .idle
    | .updateBook borrow async =>
      if book.borrow = borrow then .idle else .found n id borrow async b
  else .searching n id call next

/-- What happens next. -/
inductive Label
  /-- A thread calls `add_book`, and `kzalloc` answers. -/
  | addBook (t : ℕ) (id : ℤ) (name author : List Char) (b : Option ℕ)
  /-- A thread calls one of the functions that search as readers. -/
  | lookup (t : ℕ) (id : ℤ) (call : Lookup)
  /-- A thread calls `delete_book` and gets the lock. -/
  | deleteBook (t : ℕ) (id : ℤ) (async : Bool)
  /-- The `kzalloc` of an update answers. -/
  | kzalloc (t : ℕ) (b : Option ℕ)
  /-- A thread goes on. -/
  | step (t : ℕ)
  /-- `book_reclaim_callback` runs for a pending callback. -/
  | bookReclaimCallback (i : ℕ)
deriving DecidableEq

/-- The book that `add_book` stores. -/
def newBook (id : ℤ) (name author : List Char) : Book :=
  ⟨id, name.take textSize, author.take textSize, false⟩

/-- A grace period is over when none of its sections is open. -/
def State.graceOver (s : State) (waiting : List ℕ) : Bool := waiting.all fun n => n ∉ s.opened

/-- A thread goes on from where it is. -/
def stepThread (s : State) (t : ℕ) : Thread → Option State
  | .idle => none
  | .adding b => if s.locked then none else some ((s.listAddRcu b).put t .idle)
  | .searching n id call b =>
    if b = books then some (s.put t .idle)
    else (s.book b).map fun book => s.put t (visit n id call b book (s.next b))
  | .found .. => none
  | .copied n _ _ async old new =>
    if s.locked then none
    else (s.prev old).map fun p => (s.listReplaceRcu old new p).put t (.replaced n async old)
  | .replaced _ async old => some (s.put t (.unlinked async old))
  | .unlinked async old =>
    if async then some { s.put t .idle with callbacks := s.callbacks ++ [(old, s.opened)] }
    else some (s.put t (.synchronizing old s.opened))
  | .synchronizing old waiting =>
    if s.graceOver waiting then some ((s.kfree old).put t .idle) else none
  | .deleting id async b =>
    if b = books then some ({ s with locked := false }.put t .idle)
    else (s.book b).bind fun book =>
      if book.id = id then
        (s.prev b).map fun p =>
          { s.listDelRcu b p with locked := false }.put t (.unlinked async b)
      else some (s.put t (.deleting id async (s.next b)))
  | .reading _ => some (s.put t .idle)

/-- The answer of `kzalloc` in an update: no memory ends the call, otherwise the book is copied
and its flag changed. -/
def copyBook (s : State) (t : ℕ) (thread : Thread) (b : Option ℕ) : Option State :=
  match thread, b with
  | .found .., none => some (s.put t .idle)
  | .found n id borrow async old, some new =>
    if s.available new then
      (s.book old).map fun book =>
        (s.allocate new { book with borrow := borrow } (s.next old) (s.prev old)).put t
          (.copied n id borrow async old new)
    else none
  | _, _ => none

/-- A call of a thread that is in none. -/
def call (s : State) (t : ℕ) : Label → Option State
  | .addBook _ _ _ _ none => some s
  | .addBook _ id name author (some b) =>
    if s.available b then
      some ((s.allocate b (newBook id name author) null (some null)).put t (.adding b))
    else none
  | .lookup _ id call =>
    some { s.put t (.searching s.sections id call (s.next books)) with
      sections := s.sections + 1 }
  | .deleteBook _ id async =>
    if s.locked then none
    else some ({ s with locked := true }.put t (.deleting id async (s.next books)))
  | _ => none

/-- The callback for the oldest, or for a later, grace period that is over. -/
def bookReclaimCallback (s : State) (i : ℕ) : Option State :=
  s.callbacks[i]?.bind fun c =>
    if s.graceOver c.2 then some { s.kfree c.1 with callbacks := s.callbacks.eraseIdx i } else none

/-- The effect of a label. -/
def perform (s : State) : Label → Option State
  | .step t => s.threads[t]?.bind (stepThread s t)
  | .kzalloc t b => s.threads[t]?.bind fun thread => copyBook s t thread b
  | .bookReclaimCallback i => bookReclaimCallback s i
  | .addBook t id name author b =>
    if s.threads[t]? = some .idle then call s t (.addBook t id name author b) else none
  | .lookup t id c => if s.threads[t]? = some .idle then call s t (.lookup t id c) else none
  | .deleteBook t id async =>
    if s.threads[t]? = some .idle then call s t (.deleteBook t id async) else none

/-- The pointers that a thread dereferences when it goes on. -/
def threadTouches (s : State) : Thread → List (Option ℕ)
  | .adding b => [some b, some books, some (s.next books)]
  | .searching _ _ _ b => [some b]
  | .copied _ _ _ _ old new => [some old, some new, s.prev old, some (s.next old)]
  | .unlinked _ old => [some old]
  | .synchronizing old _ => [some old]
  | .deleting id _ b =>
    some b :: if (s.book b).any fun book => book.id = id then [s.prev b, some (s.next b)] else []
  | .reading b => [some b]
  | _ => []

/-- The pointers that an update dereferences when its `kzalloc` has answered. -/
def copyTouches : Thread → Option ℕ → List (Option ℕ)
  | .found _ _ _ _ old, some _ => [some old]
  | _, _ => []

/-- The pointers that are dereferenced next. -/
def touches (s : State) : Label → List (Option ℕ)
  | .step t => (s.threads[t]?.map (threadTouches s)).getD []
  | .kzalloc t b => (s.threads[t]?.map fun thread => copyTouches thread b).getD []
  | .bookReclaimCallback i => (s.callbacks[i]?.map fun c => [some c.1]).getD []
  | _ => [some books]

/-- The module: no book, and any number of threads. -/
def initial (n : ℕ) : State where
  book _ := none
  next _ := books
  prev _ := some books
  locked := false
  threads := List.replicate n .idle
  callbacks := []
  sections := 0

/-- The runs of the module, which end at the first bad access. -/
def machine : Machine State Label where
  start s := ∃ n, s = initial n
  next s label := if (touches s label).all s.good then perform s label else none

end Hack.ListRcu
