import Hack.ListRcu.Books
import Hack.RcuList
import Mathlib.Data.List.Perm.Basic

/-!
# Where the books are

Each allocated book is in exactly one place: linked in the list, fresh in the hands of the thread
that allocated it, or retired by the thread or callback that will give it back. `Holds` says this
for explicit lists of linked, fresh, and retired books, together with the readers that may still
stand on a retired book. Each lemma below is one thing that happens to a book.
-/

namespace Hack.ListRcu

open RcuList Function

/-- The books are linked in the given order, fresh, or retired; the linked ones hold the given
contents; and a grace period waits for every section that may stand on its book. -/
structure Holds (book : ℕ → Option Book) (next : ℕ → ℕ) (prev : ℕ → Option ℕ)
    (order fresh retired : List ℕ) (graces : List (ℕ × List ℕ)) (inside : Set ℕ)
    (viewers : ℕ → Set ℕ) (shelf : List Book) : Prop where
  sound : Sound books next prev order inside viewers
  nodup : (order ++ fresh ++ retired).Nodup
  allocated : ∀ a, (book a).isSome ↔ a ∈ order ++ fresh ++ retired
  head : book books = none
  viewed : ∀ a, ∀ n ∈ viewers a, a ∈ retired
  poisoned : ∀ a ∈ retired, prev a = none
  waiting : ∀ g ∈ graces, ∀ n ∈ viewers g.1, n ∈ g.2
  shelved : order.map book = shelf.map some

namespace Holds

variable {book : ℕ → Option Book} {next : ℕ → ℕ} {prev : ℕ → Option ℕ}
  {order fresh fresh' retired retired' : List ℕ} {graces graces' : List (ℕ × List ℕ)}
  {inside inside' : Set ℕ} {viewers : ℕ → Set ℕ} {shelf : List Book} {a old : ℕ} {b : Book}

/-- The contents only depend on the books in the list. -/
theorem map_update (ha : a ∉ order) (b : Option Book) :
    order.map (update book a b) = order.map book :=
  List.map_congr_left fun _ hx => update_of_ne (ne_of_mem_of_not_mem hx ha) _ _

/-- The contents of a list that is split at a book are split there. -/
theorem exists_shelf {l l' : List ℕ} (hshelf : (l ++ old :: l').map book = shelf.map some)
    (hold : book old = some b) :
    ∃ left right, shelf = left ++ b :: right ∧ l.map book = left.map some ∧
      l'.map book = right.map some := by
  rw [List.map_append, List.map_cons, hold] at hshelf
  obtain ⟨left, rest, rfl, hleft, hrest⟩ := List.append_eq_map_iff.mp hshelf
  obtain ⟨b', right, rfl, hb, hright⟩ := List.map_eq_cons_iff.mp hrest
  cases hb
  exact ⟨left, right, rfl, hleft.symm, hright.symm⟩

section Facts

variable (h : Holds book next prev order fresh retired graces inside viewers shelf)
include h

/-- The order in which fresh and retired books are listed does not matter, nor do grace periods
that are dropped. -/
theorem perm (hfresh : fresh.Perm fresh') (hretired : retired.Perm retired')
    (hgraces : ∀ g ∈ graces', g ∈ graces) :
    Holds book next prev order fresh' retired' graces' inside viewers shelf := by
  have hperm : (order ++ fresh ++ retired).Perm (order ++ fresh' ++ retired') :=
    (hfresh.append_left order).append hretired
  refine ⟨h.sound, hperm.nodup_iff.mp h.nodup, fun a => ?_, h.head, fun a n hn => ?_,
    fun a ha => ?_, fun g hg => h.waiting g (hgraces g hg), h.shelved⟩
  · rw [h.allocated a, hperm.mem_iff]
  · exact hretired.mem_iff.mp (h.viewed a n hn)
  · exact h.poisoned a (hretired.mem_iff.mpr ha)

/-- Sections open and close. -/
theorem restrict (inside' : Set ℕ) :
    Holds book next prev order fresh retired graces inside' (fun a => viewers a ∩ inside')
      shelf :=
  { h with
    sound := h.sound.restrict inside'
    viewed := fun a n hn => h.viewed a n hn.1
    waiting := fun g hg n hn => h.waiting g hg n hn.1 }

/-- The head of the list is not a book. -/
theorem books_notMem : books ∉ order ++ fresh ++ retired := fun hmem => by
  have hsome := (h.allocated books).mpr hmem
  rw [h.head] at hsome
  cases hsome

/-- A linked book is not fresh and not retired. -/
theorem notMem_of_linked (ha : a ∈ order) : a ∉ fresh ∧ a ∉ retired := by
  have hnodup := h.nodup
  rw [List.append_assoc, List.nodup_append] at hnodup
  have hdisj := fun x hx => hnodup.2.2 a ha x hx
  exact ⟨fun hmem => hdisj a (List.mem_append_left _ hmem) rfl,
    fun hmem => hdisj a (List.mem_append_right _ hmem) rfl⟩

/-- A fresh book is not retired. -/
theorem notMem_of_fresh (ha : a ∈ fresh) : a ∉ retired := fun hmem =>
  (List.nodup_append.mp h.nodup).2.2 a (List.mem_append_right _ ha) a hmem rfl

/-- A fresh book is not linked. -/
theorem notMem_ring_of_fresh (ha : a ∈ fresh) : a ∉ books :: order := by
  intro hmem
  rcases List.mem_cons.mp hmem with rfl | hmem
  · exact h.books_notMem (List.mem_append_left _ (List.mem_append_right _ ha))
  · exact (h.notMem_of_linked hmem).1 ha

/-- A retired book is not linked. -/
theorem notMem_ring_of_retired (ha : a ∈ retired) : a ∉ books :: order := by
  intro hmem
  rcases List.mem_cons.mp hmem with rfl | hmem
  · exact h.books_notMem (List.mem_append_right _ ha)
  · exact (h.notMem_of_linked hmem).2 ha

/-- Nobody stands on a book that is not retired. -/
theorem viewers_eq_empty (ha : a ∉ retired) : viewers a = ∅ :=
  Set.eq_empty_of_forall_notMem fun n hn => ha (h.viewed a n hn)

/-- The contents are the books along the list. -/
theorem filterMap_book : order.filterMap book = shelf := by
  have hmap : order.filterMap book = (order.map book).filterMap id := by
    rw [List.filterMap_map]
    rfl
  rw [hmap, h.shelved]
  simp

/-- A book that a section may stand on and that is not poisoned is linked. -/
theorem mem_of_visible {n : ℕ} (ha : Visible books order viewers n a) (hne : a ≠ books)
    (hprev : prev a ≠ none) : a ∈ order := by
  rcases ha with ha | ha | ha
  · exact absurd ha hne
  · exact ha
  · exact absurd (h.poisoned a (h.viewed a n ha)) hprev

/-- A book is allocated. -/
theorem alloc (ha : book a = none) (hne : a ≠ books) (b : Book) (next' : ℕ) (prev' : Option ℕ) :
    Holds (update book a (some b)) (update next a next')
      (update prev a prev') order (a :: fresh) retired graces inside viewers shelf := by
  have hmem : a ∉ order ++ fresh ++ retired := fun hmem => by
    have hsome := (h.allocated a).mpr hmem
    rw [ha] at hsome
    cases hsome
  have hring : a ∉ books :: order := by
    rw [List.mem_cons, not_or]
    exact ⟨hne, fun hmem' => hmem (List.mem_append_left _ (List.mem_append_left _ hmem'))⟩
  have hretired : a ∉ retired := fun hmem' => hmem (List.mem_append_right _ hmem')
  have hperm : (order ++ a :: fresh ++ retired).Perm (a :: (order ++ fresh ++ retired)) := by
    simp
  refine ⟨h.sound.rewrite hring (h.viewers_eq_empty hretired) next' prev',
    hperm.nodup_iff.mpr (List.nodup_cons.mpr ⟨hmem, h.nodup⟩), fun x => ?_, ?_, h.viewed,
    fun x hx => ?_, h.waiting, ?_⟩
  · rw [hperm.mem_iff, List.mem_cons, ← h.allocated x]
    by_cases hx : x = a
    · simp [hx]
    · simp [hx]
  · rw [update_of_ne hne.symm, h.head]
  · have hxa : x ≠ a := fun heq => hretired (heq ▸ hx)
    rw [update_of_ne hxa, h.poisoned x hx]
  · rw [map_update fun ha => hring (List.mem_cons_of_mem _ ha), h.shelved]

/-- The open sections are the viewers of a book that is retired. -/
theorem viewed_update (old a n : ℕ) (hn : n ∈ update viewers old inside a) :
    a ∈ old :: retired := by
  by_cases ha : a = old
  · exact ha ▸ List.mem_cons_self
  · rw [update_of_ne ha] at hn
    exact List.mem_cons_of_mem _ (h.viewed a n hn)

/-- The grace periods that have begun are not about a book that is still linked. -/
theorem waiting_update (hgraces : ∀ g ∈ graces, g.1 ∈ retired) (hold : old ∈ order) (g : ℕ × List ℕ)
    (hg : g ∈ graces) (n : ℕ) (hn : n ∈ update viewers old inside g.1) : n ∈ g.2 := by
  have hgold : g.1 ≠ old := fun heq => (h.notMem_of_linked hold).2 (heq ▸ hgraces g hg)
  rw [update_of_ne hgold] at hn
  exact h.waiting g hg n hn

/-- The retired books are poisoned after one more is, and the one behind it gets a new back
link. -/
theorem poisoned_update (hold : old ∈ order) (p : Option ℕ) {prev' : ℕ → Option ℕ}
    (hprev : ∀ x ∈ retired, prev' x = none) (x : ℕ) (hx : x ∈ old :: retired) :
    update (update prev' (next old) p) old none x = none := by
  by_cases hxold : x = old
  · rw [hxold, update_self]
  · have hx := (List.mem_cons.mp hx).resolve_left hxold
    have hafter : x ≠ next old := fun heq => h.notMem_ring_of_retired hx
      (heq ▸ h.sound.next_mem (List.mem_cons_of_mem _ hold))
    rw [update_of_ne hxold, update_of_ne hafter, hprev x hx]

/-- A linked book is unlinked and retired. -/
theorem unlink {p : ℕ} (hgraces : ∀ g ∈ graces, g.1 ∈ retired) (hold : old ∈ order)
    (hprev : prev old = some p) (hb : book old = some b) :
    ∃ order' left right, shelf = left ++ b :: right ∧ (∀ x ∈ order, x ≠ old → x ∈ order') ∧
      Holds book (update next p (next old))
        (update (update prev (next old) (some p)) old none) order' fresh
        (old :: retired) graces inside (update viewers old inside) (left ++ right) := by
  obtain ⟨l, l', rfl, hsound⟩ := h.sound.unlink hold hprev
  obtain ⟨left, right, hshelf, hleft, hright⟩ := exists_shelf h.shelved hb
  have hperm : (l ++ old :: l' ++ fresh ++ retired).Perm (l ++ l' ++ fresh ++ old :: retired) := by
    refine List.perm_iff_count.mpr fun x => ?_
    simp only [List.count_append, List.count_cons]
    omega
  refine ⟨l ++ l', left, right, hshelf, fun x hx hne => ?_, hsound,
    hperm.nodup_iff.mp h.nodup, fun x => ?_, h.head, h.viewed_update old, fun x hx => ?_,
    h.waiting_update hgraces hold, ?_⟩
  · rw [List.mem_append, List.mem_cons] at hx
    rw [List.mem_append]
    tauto
  · rw [h.allocated x, hperm.mem_iff]
  · exact h.poisoned_update hold (some p) h.poisoned x hx
  · rw [List.map_append, hleft, hright, List.map_append]

/-- A grace period begins for a retired book: it waits for the sections that are open. -/
theorem grace (old : ℕ) {waiting : List ℕ} (hwaiting : ∀ n ∈ inside, n ∈ waiting) :
    Holds book next prev order fresh retired ((old, waiting) :: graces) inside viewers shelf :=
  { h with
    waiting := by
      intro g hg n hn
      rcases List.mem_cons.mp hg with rfl | hg
      · exact hwaiting n (h.sound.viewers_subset _ hn)
      · exact h.waiting g hg n hn }

end Facts

/-- A fresh book is linked behind the head. -/
theorem link (h : Holds book next prev order (a :: fresh) retired graces inside viewers shelf)
    (hb : book a = some b) :
    Holds book (update (update next a (next books)) books a)
      (update (update prev a (some books)) (next books) (some a)) (a :: order)
      fresh retired graces inside viewers (b :: shelf) := by
  have hfresh := h.notMem_of_fresh List.mem_cons_self
  have hperm : (order ++ a :: fresh ++ retired).Perm (a :: order ++ fresh ++ retired) := by
    simp
  refine ⟨h.sound.push (h.notMem_ring_of_fresh List.mem_cons_self) (h.viewers_eq_empty hfresh),
    hperm.nodup_iff.mp h.nodup, fun x => ?_, h.head, h.viewed, fun x hx => ?_, h.waiting, ?_⟩
  · rw [h.allocated x, hperm.mem_iff]
  · have hfirst : x ≠ next books := fun heq =>
      h.notMem_ring_of_retired hx (heq ▸ h.sound.next_mem List.mem_cons_self)
    have hxa : x ≠ a := fun heq => hfresh (heq ▸ hx)
    rw [update_of_ne hfirst, update_of_ne hxa, h.poisoned x hx]
  · rw [List.map_cons, List.map_cons, hb, h.shelved]

/-- A fresh book takes the place of a linked one, which is retired. -/
theorem replace {new p : ℕ} {b' : Book}
    (h : Holds book next prev order (new :: fresh) retired graces inside viewers shelf)
    (hgraces : ∀ g ∈ graces, g.1 ∈ retired) (hold : old ∈ order) (hprev : prev old = some p)
    (hb : book old = some b) (hb' : book new = some b') :
    ∃ order' left right, shelf = left ++ b :: right ∧ (∀ x ∈ order, x ≠ old → x ∈ order') ∧
      Holds book (update (update next new (next old)) p new)
        (update (update (update prev new (some p)) (next old)
          (some new)) old none) order' fresh (old :: retired) graces inside
        (update viewers old inside) (left ++ b' :: right) := by
  have hnew := h.notMem_of_fresh List.mem_cons_self
  have hring := h.notMem_ring_of_fresh List.mem_cons_self
  obtain ⟨l, l', rfl, hsound⟩ := h.sound.replace hold hprev hring (h.viewers_eq_empty hnew)
  obtain ⟨left, right, hshelf, hleft, hright⟩ := exists_shelf h.shelved hb
  have hperm : (l ++ old :: l' ++ new :: fresh ++ retired).Perm
      (l ++ new :: l' ++ fresh ++ old :: retired) := by
    refine List.perm_iff_count.mpr fun x => ?_
    simp only [List.count_append, List.count_cons]
    omega
  refine ⟨l ++ new :: l', left, right, hshelf, fun x hx hne => ?_, hsound,
    hperm.nodup_iff.mp h.nodup, fun x => ?_, h.head, h.viewed_update old, fun x hx => ?_,
    h.waiting_update hgraces hold, ?_⟩
  · rw [List.mem_append, List.mem_cons] at hx ⊢
    tauto
  · rw [h.allocated x, hperm.mem_iff]
  · refine h.poisoned_update hold (some new) (fun x hx => ?_) x hx
    rw [update_of_ne (ne_of_mem_of_not_mem hx hnew), h.poisoned x hx]
  · rw [List.map_append, List.map_cons, hleft, hright, hb', List.map_append, List.map_cons]

/-- A retired book on which nobody stands is given back. -/
theorem free (h : Holds book next prev order fresh (a :: retired) graces inside viewers shelf)
    (hview : viewers a = ∅) :
    Holds (update book a none) next prev order fresh retired graces inside viewers
      shelf := by
  have hperm : (order ++ fresh ++ a :: retired).Perm (a :: (order ++ fresh ++ retired)) :=
    List.perm_middle
  obtain ⟨hmem, hnodup⟩ := List.nodup_cons.mp (hperm.nodup_iff.mp h.nodup)
  refine ⟨h.sound, hnodup, fun x => ?_, ?_, fun x n hn => ?_, fun x hx => ?_, h.waiting, ?_⟩
  · by_cases hx : x = a
    · simp only [hx, update_self, hmem, Option.isSome_none, Bool.false_eq_true]
    · rw [update_of_ne hx, h.allocated x, hperm.mem_iff, List.mem_cons, or_iff_right hx]
  · by_cases hx : books = a
    · rw [hx, update_self]
    · rw [update_of_ne hx, h.head]
  · refine (List.mem_cons.mp (h.viewed x n hn)).resolve_left fun heq => ?_
    rw [heq, hview] at hn
    exact hn
  · exact h.poisoned x (List.mem_cons_of_mem _ hx)
  · rw [map_update fun ha => hmem (List.mem_append_left _ (List.mem_append_left _ ha)), h.shelved]

end Holds

end Hack.ListRcu
