import Mathlib.Data.List.Nodup
import Mathlib.Data.Set.Basic

/-!
# Circular lists that are read without a lock

Readers follow the links of a circular list while writers, one at a time, insert, replace, and
unlink nodes. An unlinked node keeps its link, so that a reader standing on it finds its way back
to the list. With each unlinked node goes the set of the reading sections that were open when it
was unlinked and still are: its viewers. A section can only stand on the head, on a linked node,
or on a node of which it is a viewer, and following a link keeps this true. A node without viewers
can therefore be given back, though a section that opened later is still reading.

The address and section types are arbitrary. The link to the node before is poisoned (`none`)
when a node is unlinked.
-/

namespace Hack.RcuList

open Function

variable {α τ : Type*}

/-- Following the links from a node visits the given nodes and then the last one. -/
def Path (next : α → α) : α → List α → α → Prop
  | a, [], b => next a = b
  | a, x :: l, b => next a = x ∧ Path next x l b

/-- A section may stand on a node: the head, a linked node, or an unlinked one it is a viewer of. -/
def Visible (head : α) (order : List α) (viewers : α → Set τ) (t : τ) (a : α) : Prop :=
  a = head ∨ a ∈ order ∨ t ∈ viewers a

/-- The list and the unlinked nodes fit together. -/
structure Sound (head : α) (next : α → α) (prev : α → Option α) (order : List α)
    (inside : Set τ) (viewers : α → Set τ) : Prop where
  path : Path next head order head
  nodup : (head :: order).Nodup
  back : ∀ a ∈ head :: order, prev (next a) = some a
  viewers_subset : ∀ a, viewers a ⊆ inside
  viewers_linked : ∀ a ∈ head :: order, viewers a = ∅
  closed : ∀ a, ∀ t ∈ viewers a, Visible head order viewers t (next a)

section Path

variable {next next' : α → α} {a a' b x : α} {l l' : List α}

/-- A path is split at each node it visits. -/
theorem path_append : Path next a (l ++ x :: l') b ↔ Path next a l x ∧ Path next x l' b := by
  induction l generalizing a with
  | nil => rfl
  | cons y l ih => simp only [List.cons_append, Path, ih, and_assoc]

/-- A path only depends on the links of the nodes it leaves. -/
theorem Path.congr (hpath : Path next a l b) (ha : next' a' = next a)
    (hl : ∀ x ∈ l, next' x = next x) : Path next' a' l b := by
  induction l generalizing a a' with
  | nil => exact ha.trans hpath
  | cons y l ih =>
    obtain ⟨hy, hrest⟩ := hpath
    refine ⟨ha.trans hy, ih hrest (hl y List.mem_cons_self) fun x hx => ?_⟩
    exact hl x (List.mem_cons_of_mem _ hx)

/-- The link of a node on a path leads to a later node of it or to its end. -/
theorem Path.next_mem (hpath : Path next a l b) (hx : x ∈ a :: l) : next x = b ∨ next x ∈ l := by
  induction l generalizing a with
  | nil =>
    rw [List.mem_singleton] at hx
    exact .inl (hx ▸ hpath)
  | cons y l ih =>
    obtain ⟨hy, hrest⟩ := hpath
    rcases List.mem_cons.mp hx with rfl | hx
    · exact .inr (hy ▸ List.mem_cons_self)
    · exact (ih hrest hx).imp id (List.mem_cons_of_mem _)

/-- The last node of a path can be linked to another end. -/
theorem Path.exists_last (hpath : Path next a l b) (hnodup : (a :: l).Nodup) :
    ∃ p ∈ a :: l, next p = b ∧ ∀ (next' : α → α) (c : α), next' p = c →
      (∀ x ∈ a :: l, x ≠ p → next' x = next x) → Path next' a l c := by
  induction l generalizing a with
  | nil => exact ⟨a, List.mem_cons_self, hpath, fun next' c hc _ => hc⟩
  | cons y l ih =>
    obtain ⟨hy, hrest⟩ := hpath
    obtain ⟨hay, hnodup⟩ := List.nodup_cons.mp hnodup
    obtain ⟨p, hp, hpb, hredirect⟩ := ih hrest hnodup
    refine ⟨p, List.mem_cons_of_mem _ hp, hpb, fun next' c hc hsame => ⟨?_, ?_⟩⟩
    · have hne : a ≠ p := fun h => hay (h ▸ hp)
      rw [hsame a List.mem_cons_self hne, hy]
    · exact hredirect next' c hc fun x hx => hsame x (List.mem_cons_of_mem _ hx)

end Path

section Visible

variable {head a : α} {order : List α} {viewers : α → Set τ} {t : τ}

/-- A section may stand on every linked node. -/
theorem visible_of_mem (ha : a ∈ head :: order) : Visible head order viewers t a :=
  (List.mem_cons.mp ha).imp id .inl

/-- After a node was unlinked the open sections are its viewers, and a section may still stand
where it could. -/
theorem Visible.update [DecidableEq α] {order' : List α} {inside : Set τ} {old : α}
    (ha : Visible head order viewers t a) (ht : t ∈ inside)
    (hkeep : ∀ x ∈ order, x ≠ old → x ∈ order') :
    Visible head order' (update viewers old inside) t a := by
  by_cases hne : a = old
  · exact .inr (.inr (by rw [hne, update_self]; exact ht))
  · rcases ha with ha | ha | ha
    · exact .inl ha
    · exact .inr (.inl (hkeep a ha hne))
    · exact .inr (.inr (by rwa [update_of_ne hne]))

end Visible

namespace Sound

variable {head : α} {next : α → α} {prev : α → Option α} {order : List α} {inside : Set τ}
  {viewers : α → Set τ}

section Facts

variable (h : Sound head next prev order inside viewers) {a old : α} {t : τ}
include h

/-- The link of a linked node, or of the head, leads to a linked node or to the head. -/
theorem next_mem (ha : a ∈ head :: order) : next a ∈ head :: order :=
  List.mem_cons.mpr (h.path.next_mem ha)

/-- A section that follows a link from where it may stand comes to where it may stand. -/
theorem visible_next (ha : Visible head order viewers t a) :
    Visible head order viewers t (next a) := by
  rcases ha with rfl | ha | ha
  · exact visible_of_mem (h.next_mem List.mem_cons_self)
  · exact visible_of_mem (h.next_mem (List.mem_cons_of_mem _ ha))
  · exact h.closed a t ha

/-- Two linked nodes with the same link are the same. -/
theorem next_injOn {b : α} (ha : a ∈ head :: order) (hb : b ∈ head :: order)
    (hnext : next a = next b) : a = b :=
  Option.some_inj.mp ((h.back a ha).symm.trans (hnext ▸ h.back b hb))

/-- A node with a viewer is not linked. -/
theorem notMem_of_viewer (ht : t ∈ viewers a) : a ∉ head :: order := by
  intro ha
  rw [h.viewers_linked a ha] at ht
  exact ht

/-- What a writer finds around a node that it unlinks: the node before it, the path up to there,
the path behind the node, and that the other nodes lead elsewhere. -/
theorem exists_split {p : α} (hold : old ∈ order) (hprev : prev old = some p) :
    ∃ l l', order = l ++ old :: l' ∧ (old :: head :: (l ++ l')).Nodup ∧
      p ∈ head :: (l ++ l') ∧ next old ∈ head :: (l ++ l') ∧
      (∀ b ∈ head :: (l ++ l'), b ≠ p → next b ≠ old ∧ next b ≠ next old) ∧
      (∀ (next' : α → α) (c : α), next' p = c → (∀ x ∈ head :: (l ++ l'), x ≠ p →
        next' x = next x) → Path next' head l c) ∧
      Path next old l' head ∧ p ∉ l' := by
  obtain ⟨l, l', rfl⟩ := List.append_of_mem hold
  have hperm : (head :: (l ++ old :: l')).Perm (old :: head :: (l ++ l')) :=
    (List.perm_middle.cons head).trans (.swap ..)
  have hnodup := hperm.nodup_iff.mp h.nodup
  have hsub : (head :: l).Sublist (head :: (l ++ l')) :=
    (List.sublist_append_left l _).cons_cons head
  have hsub' : (head :: (l ++ l')).Sublist (head :: (l ++ old :: l')) :=
    ((List.sublist_cons_self old l').append_left l).cons_cons head
  obtain ⟨hleft, hright⟩ := path_append.mp h.path
  obtain ⟨q, hq, hnext, hredirect⟩ := hleft.exists_last (h.nodup.sublist (hsub.trans hsub'))
  have hqmem := hsub'.subset (hsub.subset hq)
  obtain rfl : q = p := Option.some_inj.mp ((hnext ▸ h.back q hqmem).symm.trans hprev)
  have hafter : next old ∈ head :: (l ++ l') := by
    rcases hright.next_mem List.mem_cons_self with heq | hmem
    · exact heq ▸ List.mem_cons_self
    · exact List.mem_cons_of_mem _ (List.mem_append_right _ hmem)
  refine ⟨l, l', rfl, hnodup, hsub.subset hq, hafter, fun b hb hbq => ⟨fun heq => ?_,
    fun heq => ?_⟩, fun next' c hc hsame => ?_, hright, fun hmem => ?_⟩
  · exact hbq (h.next_injOn (hsub'.subset hb) hqmem (heq.trans hnext.symm))
  · have heq' := h.next_injOn (hsub'.subset hb) (List.mem_cons_of_mem _ hold) heq
    exact (List.nodup_cons.mp hnodup).1 (heq' ▸ hb)
  · exact hredirect next' c hc fun x hx => hsame x (hsub.subset hx)
  · have hdisj := (List.nodup_append.mp (List.cons_append ▸ (List.nodup_cons.mp hnodup).2)).2.2
    exact hdisj q hq q hmem rfl

/-- Whichever sections are open next, those that are still open keep what they view. -/
theorem restrict (inside' : Set τ) :
    Sound head next prev order inside' fun a => viewers a ∩ inside' where
  path := h.path
  nodup := h.nodup
  back := h.back
  viewers_subset _ := Set.inter_subset_right
  viewers_linked a ha := by rw [h.viewers_linked a ha, Set.empty_inter]
  closed a t ht := (h.closed a t ht.1).imp id fun hmem => hmem.imp id fun hview => ⟨hview, ht.2⟩

end Facts

variable [DecidableEq α] (h : Sound head next prev order inside viewers) {a old p : α}
include h

/-- The links of a node that no section can stand on may change. -/
theorem rewrite (ha : a ∉ head :: order) (hview : viewers a = ∅) (next' : α) (prev' : Option α) :
    Sound head (update next a next') (update prev a prev') order inside
      viewers := by
  have hne : ∀ b ∈ head :: order, b ≠ a := fun b hb heq => ha (heq ▸ hb)
  refine ⟨h.path.congr ?_ fun x hx => ?_, h.nodup, fun b hb => ?_, h.viewers_subset,
    h.viewers_linked, fun b t hb => ?_⟩
  · rw [update_of_ne (hne head List.mem_cons_self)]
  · rw [update_of_ne (hne x (List.mem_cons_of_mem _ hx))]
  · rw [update_of_ne (hne b hb), update_of_ne (hne _ (h.next_mem hb))]
    exact h.back b hb
  · have hba : b ≠ a := by
      rintro rfl
      rw [hview] at hb
      exact hb
    rw [update_of_ne hba]
    exact h.closed b t hb

/-- A node that no section can stand on is inserted behind the head. -/
theorem push (ha : a ∉ head :: order) (hview : viewers a = ∅) :
    Sound head (update (update next a (next head)) head a)
      (update (update prev a (some head)) (next head) (some a)) (a :: order)
      inside viewers := by
  have hne : ∀ b ∈ head :: order, b ≠ a := fun b hb heq => ha (heq ▸ hb)
  have hhead : a ≠ head := (hne head List.mem_cons_self).symm
  have hother : ∀ b ∈ order, b ≠ head := fun b hb heq =>
    (List.nodup_cons.mp h.nodup).1 (heq ▸ hb)
  constructor
  case path =>
    refine ⟨update_self .., h.path.congr ?_ fun x hx => ?_⟩
    · rw [update_of_ne hhead, update_self]
    · rw [update_of_ne (hother x hx),
        update_of_ne (hne x (List.mem_cons_of_mem _ hx))]
  case nodup => exact (List.Perm.swap ..).nodup_iff.mp (List.nodup_cons.mpr ⟨ha, h.nodup⟩)
  case back =>
    intro b hb
    rw [List.mem_cons, List.mem_cons] at hb
    rcases hb with rfl | rfl | hb
    · rw [update_self, update_of_ne (hne _ (h.next_mem List.mem_cons_self)).symm,
        update_self]
    · rw [update_of_ne hhead, update_self, update_self]
    · have hmem := List.mem_cons_of_mem head hb
      have hfirst : next b ≠ next head := fun heq =>
        hother b hb (h.next_injOn hmem List.mem_cons_self heq)
      rw [update_of_ne (hother b hb), update_of_ne (hne b hmem),
        update_of_ne hfirst, update_of_ne (hne _ (h.next_mem hmem))]
      exact h.back b hmem
  case viewers_subset => exact h.viewers_subset
  case viewers_linked =>
    intro b hb
    rcases List.mem_cons.mp ((List.Perm.swap ..).mem_iff.mp hb) with rfl | hb
    · exact hview
    · exact h.viewers_linked b hb
  case closed =>
    intro b t hb
    have hba : b ≠ a := by
      rintro rfl
      rw [hview] at hb
      exact hb
    have hbhead : b ≠ head := fun heq => h.notMem_of_viewer hb (heq ▸ List.mem_cons_self)
    rw [update_of_ne hbhead, update_of_ne hba]
    exact (h.closed b t hb).imp id (Or.imp (List.mem_cons_of_mem _) id)

/-- The viewers after a node was unlinked are open sections. -/
theorem update_viewers_subset (old a : α) : update viewers old inside a ⊆ inside := by
  by_cases ha : a = old
  · rw [ha, update_self]
  · rw [update_of_ne ha]
    exact h.viewers_subset a

/-- After a node was unlinked, a viewer that follows a link comes to where it may stand, whatever
happens to the links of the other nodes. -/
theorem closed_update {order' : List α} {next' : α → α} (hold : old ∈ order)
    (hkeep : ∀ x ∈ order, x ≠ old → x ∈ order') (hsame : next' old = next old)
    (hview : ∀ b t, t ∈ viewers b → next' b = next b) (b : α) (t : τ)
    (ht : t ∈ update viewers old inside b) :
    Visible head order' (update viewers old inside) t (next' b) := by
  by_cases hb : b = old
  · rw [hb, update_self] at ht
    rw [hb, hsame]
    exact (visible_of_mem (h.next_mem (List.mem_cons_of_mem _ hold))).update ht hkeep
  · rw [update_of_ne hb] at ht
    rw [hview b t ht]
    exact (h.closed b t ht).update (h.viewers_subset b ht) hkeep

/-- A node that no section can stand on takes the place of a linked one, which is unlinked. -/
theorem replace {new : α} (hold : old ∈ order) (hprev : prev old = some p)
    (hnew : new ∉ head :: order) (hview : viewers new = ∅) : ∃ l l', order = l ++ old :: l' ∧
      Sound head (update (update next new (next old)) p new)
        (update (update (update prev new (some p)) (next old)
          (some new)) old none) (l ++ new :: l') inside (update viewers old inside) := by
  obtain ⟨l, l', horder, hnodup, hp, hafter, hlead, hleft, hright, hpl⟩ :=
    h.exists_split hold hprev
  obtain ⟨holdmem, hnodup⟩ := List.nodup_cons.mp hnodup
  have hperm : ∀ a, (head :: (l ++ a :: l')).Perm (a :: head :: (l ++ l')) := fun a =>
    (List.perm_middle.cons head).trans (.swap ..)
  have hlinked : ∀ b, b = old ∨ b ∈ head :: (l ++ l') → b ∈ head :: order := fun b hb => by
    rw [horder]
    exact (hperm old).mem_iff.mpr (List.mem_cons.mpr hb)
  have hne : ∀ b, b = old ∨ b ∈ head :: (l ++ l') → new ≠ b := fun b hb heq =>
    hnew (heq ▸ hlinked b hb)
  have hneold : ∀ b ∈ head :: (l ++ l'), b ≠ old := fun b hb heq => holdmem (heq ▸ hb)
  have hother : ∀ b ∈ head :: (l ++ l'), b ≠ p →
      update (update next new (next old)) p new b = next b := fun b hb hbp => by
    rw [update_of_ne hbp, update_of_ne (hne b (.inr hb)).symm]
  refine ⟨l, l', horder, ?_⟩
  constructor
  case path =>
    refine path_append.mpr ⟨hleft _ new (update_self ..) hother,
      hright.congr ?_ fun x hx => ?_⟩
    · rw [update_of_ne (hne p (.inr hp)), update_self]
    · exact hother x (List.mem_cons_of_mem _ (List.mem_append_right _ hx))
        fun heq => hpl (heq ▸ hx)
  case nodup =>
    rw [(hperm new).nodup_iff, List.nodup_cons]
    exact ⟨fun hmem => hne new (.inr hmem) rfl, hnodup⟩
  case back =>
    intro b hb
    rcases List.mem_cons.mp ((hperm new).mem_iff.mp hb) with rfl | hb
    · rw [update_of_ne (hne p (.inr hp)), update_self,
        update_of_ne (hneold _ hafter), update_self]
    by_cases hbp : b = p
    · rw [hbp, update_self, update_of_ne (hne old (.inl rfl)),
        update_of_ne (hne _ (.inr hafter)), update_self]
    · have hnext : next b ≠ new := fun heq => hnew (heq ▸ h.next_mem (hlinked b (.inr hb)))
      rw [hother b hb hbp, update_of_ne (hlead b hb hbp).1,
        update_of_ne (hlead b hb hbp).2, update_of_ne hnext]
      exact h.back b (hlinked b (.inr hb))
  case viewers_subset => exact h.update_viewers_subset old
  case viewers_linked =>
    intro b hb
    rcases List.mem_cons.mp ((hperm new).mem_iff.mp hb) with rfl | hb
    · rw [update_of_ne (hne old (.inl rfl)), hview]
    · rw [update_of_ne (hneold b hb), h.viewers_linked b (hlinked b (.inr hb))]
  case closed =>
    refine h.closed_update hold (fun x hx hxold => ?_) ?_ fun b t ht => ?_
    · rw [horder, List.mem_append, List.mem_cons] at hx
      rw [List.mem_append, List.mem_cons]
      tauto
    · rw [update_of_ne (hneold p hp).symm, update_of_ne (hne old (.inl rfl)).symm]
    · have hbp : b ≠ p := fun heq => h.notMem_of_viewer ht (heq ▸ hlinked p (.inr hp))
      have hbnew : b ≠ new := by
        rintro rfl
        rw [hview] at ht
        exact ht
      rw [update_of_ne hbp, update_of_ne hbnew]

/-- A linked node is unlinked. -/
theorem unlink (hold : old ∈ order) (hprev : prev old = some p) : ∃ l l', order = l ++ old :: l' ∧
      Sound head (update next p (next old))
        (update (update prev (next old) (some p)) old none) (l ++ l') inside
        (update viewers old inside) := by
  obtain ⟨l, l', horder, hnodup, hp, hafter, hlead, hleft, hright, hpl⟩ :=
    h.exists_split hold hprev
  obtain ⟨holdmem, hnodup⟩ := List.nodup_cons.mp hnodup
  have hlinked : ∀ b ∈ head :: (l ++ l'), b ∈ head :: order := fun b hb => by
    rw [horder]
    exact ((List.perm_middle.cons head).trans (.swap ..)).mem_iff.mpr (List.mem_cons_of_mem _ hb)
  have hneold : ∀ b ∈ head :: (l ++ l'), b ≠ old := fun b hb heq => holdmem (heq ▸ hb)
  have hother : ∀ b, b ≠ p → update next p (next old) b = next b := fun b hbp =>
    update_of_ne hbp _ _
  refine ⟨l, l', horder, ?_⟩
  constructor
  case path =>
    cases l' with
    | nil =>
      rw [List.append_nil]
      exact hleft _ head ((update_self ..).trans hright) fun x _ hxp => hother x hxp
    | cons y l' =>
      obtain ⟨hy, hrest⟩ := hright
      refine path_append.mpr ⟨hleft _ y ((update_self ..).trans hy)
        fun x _ hxp => hother x hxp, hrest.congr ?_ fun x hx => ?_⟩
      · exact hother y fun heq => hpl (heq ▸ List.mem_cons_self)
      · exact hother x fun heq => hpl (heq ▸ List.mem_cons_of_mem _ hx)
  case nodup => exact hnodup
  case back =>
    intro b hb
    by_cases hbp : b = p
    · rw [hbp, update_self, update_of_ne (hneold _ hafter), update_self]
    · rw [hother b hbp, update_of_ne (hlead b hb hbp).1,
        update_of_ne (hlead b hb hbp).2]
      exact h.back b (hlinked b hb)
  case viewers_subset => exact h.update_viewers_subset old
  case viewers_linked =>
    intro b hb
    rw [update_of_ne (hneold b hb), h.viewers_linked b (hlinked b hb)]
  case closed =>
    refine h.closed_update hold (fun x hx hxold => ?_) (hother old (hneold p hp).symm)
      fun b t ht => ?_
    · rw [horder, List.mem_append, List.mem_cons] at hx
      rw [List.mem_append]
      tauto
    · exact hother b fun heq => h.notMem_of_viewer ht (heq ▸ hlinked p hp)

end Sound

end Hack.RcuList
