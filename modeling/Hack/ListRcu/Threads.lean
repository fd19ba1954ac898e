import Hack.Custody
import Hack.ListRcu.Shelf

/-!
# What the threads know about the books

The lists of `Holds` are what the threads and the pending callbacks have in their hands. A thread
also knows something: where its reading section stands, and what it has found or copied. The
invariant ties both to the state, for the threads in any order, so that each lemma below speaks of
one thread in front of the others.
-/

namespace Hack.ListRcu

open RcuList Function

namespace Thread

/-- The books that a thread has allocated and not linked. -/
def fresh : Thread → List ℕ
  | .adding b => [b]
  | .copied _ _ _ _ _ new => [new]
  | _ => []

/-- The books that a thread has unlinked and not given back. -/
def retired : Thread → List ℕ
  | .replaced _ _ old | .unlinked _ old | .synchronizing old _ => [old]
  | _ => []

/-- The grace period that a thread waits for. -/
def graces : Thread → List (ℕ × List ℕ)
  | .synchronizing old waiting => [(old, waiting)]
  | _ => []

/-- A thread is in `delete_book`, with the lock. -/
def deletes : Thread → Bool
  | .deleting .. => true
  | _ => false

end Thread

/-- What a thread knows. -/
def Fits (book : ℕ → Option Book) (order : List ℕ) (viewers : ℕ → Set ℕ) : Thread → Prop
  | .adding b => ∃ bk, book b = some bk ∧ bk.borrow = false
  | .searching n _ _ b => Visible books order viewers n b
  | .found n id borrow _ old => Visible books order viewers n old ∧ old ≠ books ∧
      ∃ b, book old = some b ∧ b.id = id ∧ b.borrow = !borrow
  | .copied n id borrow _ old new => Visible books order viewers n old ∧ old ≠ books ∧
      ∃ b, book old = some b ∧ b.id = id ∧ (b.borrow = !borrow) ∧
        book new = some { b with borrow := borrow }
  | .deleting _ _ b => b ∈ books :: order
  | .reading b => b ≠ books
  | _ => True

/-- A thread still knows what it knew when a section sees as much as before and the books that it
knows about are still there. -/
theorem Fits.mono {book book' : ℕ → Option Book} {order order' : List ℕ}
    {viewers viewers' : ℕ → Set ℕ} {thread : Thread} (h : Fits book order viewers thread)
    (hvisible : ∀ n ∈ thread.section, ∀ a, Visible books order viewers n a →
      Visible books order' viewers' n a ∧ ∀ b, book a = some b → book' a = some b)
    (hfresh : ∀ a ∈ thread.fresh, ∀ b, book a = some b → book' a = some b)
    (hdeletes : thread.deletes → order' = order) : Fits book' order' viewers' thread := by
  cases thread with
  | adding b =>
    obtain ⟨bk, hbk, hborrow⟩ := h
    exact ⟨bk, hfresh b List.mem_cons_self bk hbk, hborrow⟩
  | searching n id call b => exact (hvisible n rfl b h).1
  | found n id borrow async old =>
    obtain ⟨hold, hne, b, hb, hmatch⟩ := h
    exact ⟨(hvisible n rfl old hold).1, hne, b, (hvisible n rfl old hold).2 b hb, hmatch⟩
  | copied n id borrow async old new =>
    obtain ⟨hold, hne, b, hb, hid, hborrow, hnew⟩ := h
    exact ⟨(hvisible n rfl old hold).1, hne, b, (hvisible n rfl old hold).2 b hb, hid, hborrow,
      hfresh new List.mem_cons_self _ hnew⟩
  | deleting id async b =>
    rw [Fits, hdeletes rfl]
    exact h
  | reading b => exact h
  | _ => trivial

/-- The invariant: the books are where the threads and callbacks have them, each thread is right
about what it knows, and the lock is held by the thread in `delete_book`. -/
structure Inv (book : ℕ → Option Book) (next : ℕ → ℕ) (prev : ℕ → Option ℕ) (locked : Bool)
    (threads : List Thread) (callbacks : List (ℕ × List ℕ)) (order : List ℕ)
    (viewers : ℕ → Set ℕ) (shelf : List Book) : Prop where
  holds : Holds book next prev order (threads.flatMap Thread.fresh)
    (threads.flatMap Thread.retired ++ callbacks.map Prod.fst)
    (threads.flatMap Thread.graces ++ callbacks) {n | n ∈ threads.filterMap Thread.section}
    viewers shelf
  fits : ∀ thread ∈ threads, Fits book order viewers thread
  lock : threads.countP Thread.deletes = if locked then 1 else 0

namespace Inv

variable {book : ℕ → Option Book} {next : ℕ → ℕ} {prev : ℕ → Option ℕ} {locked locked' : Bool}
  {thread thread' : Thread} {threads threads' others : List Thread} {callbacks : List (ℕ × List ℕ)}
  {order : List ℕ} {viewers : ℕ → Set ℕ} {shelf : List Book} {a b n old new p : ℕ} {bk : Book}
  {id : ℤ} {async : Bool} {waiting : List ℕ}

/-- The threads may be listed in any order. -/
theorem perm (h : Inv book next prev locked threads callbacks order viewers shelf)
    (hperm : threads.Perm threads') :
    Inv book next prev locked threads' callbacks order viewers shelf where
  holds := by
    have hinside : {n | n ∈ threads.filterMap Thread.section} =
        {n | n ∈ threads'.filterMap Thread.section} :=
      Set.ext fun n => (hperm.filterMap _).mem_iff
    rw [← hinside]
    refine h.holds.perm (hperm.flatMap_right _) ((hperm.flatMap_right _).append_right _) ?_
    exact fun g => ((hperm.flatMap_right _).append_right _).mem_iff.mpr
  fits thread hthread := h.fits thread (hperm.mem_iff.mpr hthread)
  lock := (hperm.countP_eq _).symm.trans h.lock

/-- A grace period is about a retired book. -/
theorem mem_retired_of_grace (g : ℕ × List ℕ)
    (hg : g ∈ threads.flatMap Thread.graces ++ callbacks) :
    g.1 ∈ threads.flatMap Thread.retired ++ callbacks.map Prod.fst := by
  rcases List.mem_append.mp hg with hg | hg
  · obtain ⟨thread, hthread, hg⟩ := List.mem_flatMap.mp hg
    refine List.mem_append_left _ (List.mem_flatMap.mpr ⟨thread, hthread, ?_⟩)
    cases thread with
    | synchronizing old waiting =>
      rw [Thread.graces, List.mem_singleton] at hg
      exact hg ▸ List.mem_cons_self
    | _ => cases hg
  · exact List.mem_append_right _ (List.mem_map_of_mem hg)

/-- The section of a thread is open. -/
theorem mem_opened (hthread : thread ∈ threads) (hn : n ∈ thread.section) :
    n ∈ threads.filterMap Thread.section :=
  List.mem_filterMap.mpr ⟨thread, hthread, hn⟩

section Facts

variable (h : Inv book next prev locked (thread :: others) callbacks order viewers shelf)
include h

/-- No other thread is in `delete_book` while the lock is free or held by this one. -/
theorem deletes_eq_false (hlock : locked = true → thread.deletes = true) :
    ∀ other ∈ others, other.deletes = false := by
  have hcount := h.lock
  rw [List.countP_cons] at hcount
  have hzero : others.countP Thread.deletes = 0 := by
    cases locked with
    | false =>
      rw [if_neg Bool.false_ne_true] at hcount
      omega
    | true =>
      rw [if_pos (hlock rfl), if_pos rfl] at hcount
      omega
  intro other hother
  simpa using List.countP_eq_zero.mp hzero other hother

/-- The lock after a thread went on that does not change it. -/
theorem lock_of_deletes_eq (hdeletes : thread'.deletes = thread.deletes) :
    (thread' :: others).countP Thread.deletes = if locked then 1 else 0 := by
  rw [← h.lock, List.countP_cons, List.countP_cons, hdeletes]

/-- The lock after the thread in `delete_book` has released it. -/
theorem lock_of_released (hdeletes : thread.deletes = true) (hdeletes' : thread'.deletes = false) :
    (thread' :: others).countP Thread.deletes = if false then 1 else 0 := by
  rw [if_neg Bool.false_ne_true, List.countP_eq_zero]
  intro other hother
  rcases List.mem_cons.mp hother with rfl | hmem
  · simp [hdeletes']
  · simp [h.deletes_eq_false (fun _ => hdeletes) other hmem]

/-- A thread goes on without allocating, linking, unlinking, or giving back a book. -/
theorem quiet (hfresh : thread'.fresh = thread.fresh) (hretired : thread'.retired = thread.retired)
    (hgraces : thread'.graces = thread.graces) (hfits : Fits book order viewers thread')
    (hlock : (thread' :: others).countP Thread.deletes = if locked' then 1 else 0) :
    ∃ viewers', Inv book next prev locked' (thread' :: others) callbacks order viewers' shelf := by
  refine ⟨fun a => viewers a ∩ {n | n ∈ (thread' :: others).filterMap Thread.section}, ?_,
    fun other hother => ?_, hlock⟩
  · have hholds := h.holds
    simp only [List.flatMap_cons] at hholds ⊢
    rw [hfresh, hretired, hgraces]
    exact hholds.restrict _
  · have hmono := List.forall_mem_cons.mpr ⟨hfits, (List.forall_mem_cons.mp h.fits).2⟩
    refine (hmono other hother).mono (fun n hn a ha => ⟨?_, fun _ => id⟩) (fun _ _ _ => id)
      fun _ => rfl
    exact ha.imp id (Or.imp id fun hview => ⟨hview, mem_opened hother hn⟩)

/-- A thread allocates a book. -/
theorem alloc (ha : book a = none) (hne : a ≠ books) {next' : ℕ} {prev' : Option ℕ}
    (hsection : thread'.section = thread.section) (hfresh : thread.fresh = [])
    (hfresh' : thread'.fresh = [a]) (hretired : thread'.retired = thread.retired)
    (hgraces : thread'.graces = thread.graces) (hdeletes : thread'.deletes = thread.deletes)
    (hfits : Fits (update book a (some bk)) order viewers thread') :
    Inv (update book a (some bk)) (update next a next')
      (update prev a prev') locked (thread' :: others) callbacks order viewers shelf where
  holds := by
    have hholds := h.holds.alloc ha hne bk next' prev'
    simp only [List.flatMap_cons, List.filterMap_cons, hfresh, hfresh', hretired, hgraces,
      hsection, List.nil_append, List.singleton_append] at hholds ⊢
    exact hholds
  fits := by
    have hkeep : ∀ x b, book x = some b → update book a (some bk) x = some b := by
      intro x b hx
      have hxa : x ≠ a := fun heq => by simp [heq, ha] at hx
      rw [update_of_ne hxa, hx]
    refine List.forall_mem_cons.mpr ⟨hfits, fun other hmem => ?_⟩
    exact ((List.forall_mem_cons.mp h.fits).2 other hmem).mono (fun _ _ x hx => ⟨hx, hkeep x⟩)
      (fun x _ => hkeep x) fun _ => rfl
  lock := h.lock_of_deletes_eq hdeletes

/-- The other threads after a book was unlinked. -/
theorem fits_unlinked {order' : List ℕ} (hkeep : ∀ x ∈ order, x ≠ old → x ∈ order')
    (hothers : ∀ other ∈ others, other.deletes = false) {inside : Set ℕ}
    (hinside : ∀ n ∈ others.filterMap Thread.section, n ∈ inside) (other : Thread)
    (hother : other ∈ others) :
    Fits book order' (update viewers old inside) other := by
  refine (h.fits other (List.mem_cons_of_mem _ hother)).mono
    (fun n hn a ha => ⟨ha.update ?_ hkeep, fun _ => id⟩) (fun _ _ _ => id)
    (by simp [hothers other hother])
  exact hinside n (mem_opened hother hn)

end Facts

/-- `add_book` links its book. -/
theorem link (h : Inv book next prev false (.adding b :: others) callbacks order viewers shelf) :
    ∃ bk, book b = some bk ∧ bk.borrow = false ∧
      Inv book (update (update next b (next books)) books b)
        (update (update prev b (some books)) (next books) (some b)) false
        (.idle :: others) callbacks (b :: order) viewers (bk :: shelf) := by
  obtain ⟨⟨bk, hbk, hborrow⟩, hothers⟩ := List.forall_mem_cons.mp h.fits
  refine ⟨bk, hbk, hborrow, h.holds.link hbk,
    List.forall_mem_cons.mpr ⟨trivial, fun other hmem => ?_⟩, h.lock_of_deletes_eq rfl⟩
  refine (hothers other hmem).mono (fun n _ a ha => ⟨?_, fun _ => id⟩) (fun _ _ _ => id)
    (by simp [h.deletes_eq_false (by simp) other hmem])
  exact ha.imp id (Or.imp (List.mem_cons_of_mem _) id)

/-- An update links its copy in the place of the book that it found, if this is not poisoned. -/
theorem replace {borrow : Bool}
    (h : Inv book next prev false (.copied n id borrow async old new :: others) callbacks order
      viewers shelf)
    (hprev : prev old = some p) :
    ∃ order' viewers' left bk right, shelf = left ++ bk :: right ∧ bk.id = id ∧
      (bk.borrow = !borrow) ∧
      Inv book (update (update next new (next old)) p new)
        (update (update (update prev new (some p)) (next old)
          (some new)) old none) false (.replaced n async old :: others) callbacks order' viewers'
        (left ++ { bk with borrow := borrow } :: right) := by
  obtain ⟨hvisible, hne, bk, hbk, hid, hborrow, hnew⟩ := h.fits _ List.mem_cons_self
  have hold := h.holds.mem_of_visible hvisible hne (by simp [hprev])
  obtain ⟨order', left, right, hshelf, hkeep, hholds⟩ :=
    h.holds.replace mem_retired_of_grace hold hprev hbk hnew
  refine ⟨order', _, left, bk, right, hshelf, hid, hborrow, hholds,
    List.forall_mem_cons.mpr ⟨trivial, ?_⟩, h.lock_of_deletes_eq rfl⟩
  exact h.fits_unlinked hkeep (h.deletes_eq_false (by simp)) fun m hm => List.mem_cons_of_mem n hm

/-- `delete_book` unlinks the book that it found. -/
theorem unlink
    (h : Inv book next prev locked (.deleting id async b :: others) callbacks order viewers shelf)
    (hb : b ≠ books) (hbk : book b = some bk) (hprev : prev b = some p) :
    ∃ order' viewers' left right, shelf = left ++ bk :: right ∧
      Inv book (update next p (next b))
        (update (update prev (next b) (some p)) b none) false
        (.unlinked async b :: others) callbacks order' viewers' (left ++ right) := by
  have hmem : b ∈ order := (List.mem_cons.mp (h.fits _ List.mem_cons_self)).resolve_left hb
  obtain ⟨order', left, right, hshelf, hkeep, hholds⟩ :=
    h.holds.unlink mem_retired_of_grace hmem hprev hbk
  exact ⟨order', _, left, right, hshelf, hholds, List.forall_mem_cons.mpr ⟨trivial,
    h.fits_unlinked hkeep (h.deletes_eq_false fun _ => rfl) fun _ hn => hn⟩,
    h.lock_of_released rfl rfl⟩

/-- `synchronize_rcu` begins to wait. -/
theorem synchronize
    (h : Inv book next prev locked (.unlinked async old :: others) callbacks order viewers shelf)
    (hwaiting : ∀ n ∈ others.filterMap Thread.section, n ∈ waiting) :
    Inv book next prev locked (.synchronizing old waiting :: others) callbacks order viewers
      shelf where
  holds := h.holds.grace old hwaiting
  fits := List.forall_mem_cons.mpr ⟨trivial, (List.forall_mem_cons.mp h.fits).2⟩
  lock := h.lock_of_deletes_eq rfl

/-- `call_rcu` adds a callback. -/
theorem callRcu
    (h : Inv book next prev locked (.unlinked async old :: others) callbacks order viewers shelf)
    (hwaiting : ∀ n ∈ others.filterMap Thread.section, n ∈ waiting) :
    Inv book next prev locked (.idle :: others) (callbacks ++ [(old, waiting)]) order viewers
      shelf where
  holds := by
    have hgrace := h.holds.grace old hwaiting
    refine hgrace.perm (.refl _) ?_ ?_
    · simp only [List.flatMap_cons, Thread.retired, List.map_append, List.map_cons, List.map_nil,
        List.nil_append, List.cons_append]
      rw [← List.append_assoc]
      exact (List.perm_append_singleton ..).symm
    · intro g hg
      simp only [List.flatMap_cons, Thread.graces, List.nil_append, List.mem_append,
        List.mem_cons] at hg ⊢
      tauto
  fits := List.forall_mem_cons.mpr ⟨trivial, (List.forall_mem_cons.mp h.fits).2⟩
  lock := h.lock_of_deletes_eq rfl

/-- The threads after a retired book was given back on which nobody stands. -/
theorem fits_free (h : Inv book next prev locked threads callbacks order viewers shelf)
    (ha : a ∈ threads.flatMap Thread.retired ++ callbacks.map Prod.fst) (hview : viewers a = ∅)
    (thread : Thread) (hthread : thread ∈ threads) :
    Fits (update book a none) order viewers thread := by
  have hkeep : ∀ x, x ≠ a → ∀ b, book x = some b → update book a none x = some b :=
    fun x hx b hb => by rw [update_of_ne hx, hb]
  refine (h.fits thread hthread).mono (fun n _ x hx => ⟨hx, hkeep x ?_⟩)
    (fun x hx => hkeep x ?_) fun _ => rfl
  · rintro rfl
    rcases hx with rfl | hx | hx
    · exact h.holds.notMem_ring_of_retired ha List.mem_cons_self
    · exact (h.holds.notMem_of_linked hx).2 ha
    · rw [hview] at hx
      exact hx
  · rintro rfl
    exact h.holds.notMem_of_fresh (List.mem_flatMap.mpr ⟨thread, hthread, hx⟩) ha

/-- Nobody stands on a book whose grace period is over. -/
theorem viewers_eq_empty (h : Inv book next prev locked threads callbacks order viewers shelf)
    (hg : (a, waiting) ∈ threads.flatMap Thread.graces ++ callbacks)
    (hover : ∀ n ∈ waiting, n ∉ threads.filterMap Thread.section) : viewers a = ∅ :=
  Set.eq_empty_of_forall_notMem fun n hn =>
    hover n (h.holds.waiting _ hg n hn) (h.holds.sound.viewers_subset a hn)

/-- `synchronize_rcu` returns and the thread gives its book back. -/
theorem freeSynchronized
    (h : Inv book next prev locked (.synchronizing old waiting :: others) callbacks order viewers
      shelf)
    (hover : ∀ n ∈ waiting,
      n ∉ (Thread.synchronizing old waiting :: others).filterMap Thread.section) :
    Inv (update book old none) next prev locked (.idle :: others) callbacks order viewers
      shelf := by
  have hview : viewers old = ∅ :=
    h.viewers_eq_empty (List.mem_append_left _ (by simp [Thread.graces])) hover
  refine ⟨?_, List.forall_mem_cons.mpr ⟨trivial, fun other hmem => ?_⟩, h.lock_of_deletes_eq rfl⟩
  · refine (h.holds.perm (.refl _) (.refl _) fun g hg => ?_).free hview
    exact List.mem_cons_of_mem _ hg
  · exact h.fits_free (by simp [Thread.retired]) hview other (List.mem_cons_of_mem _ hmem)

/-- A callback runs and gives its book back. -/
theorem freeCallback {i : ℕ} (h : Inv book next prev locked threads callbacks order viewers shelf)
    (hi : callbacks[i]? = some (a, waiting))
    (hover : ∀ n ∈ waiting, n ∉ threads.filterMap Thread.section) :
    Inv (update book a none) next prev locked threads (callbacks.eraseIdx i) order viewers
      shelf := by
  have hmem := List.mem_of_getElem? hi
  have hview := h.viewers_eq_empty (List.mem_append_right _ hmem) hover
  have hperm := Custody.perm_cons_eraseIdx hi
  refine ⟨?_, h.fits_free (List.mem_append_right _ (List.mem_map_of_mem hmem)) hview, h.lock⟩
  refine (h.holds.perm (.refl _) ?_ fun g hg => ?_).free hview
  · refine ((hperm.map Prod.fst).append_left _).trans ?_
    exact List.perm_middle
  · rcases List.mem_append.mp hg with hg | hg
    · exact List.mem_append_left _ hg
    · exact List.mem_append_right _ (hperm.mem_iff.mpr (List.mem_cons_of_mem _ hg))

end Inv

end Hack.ListRcu
