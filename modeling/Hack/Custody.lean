import Mathlib.Data.List.Perm.Subperm
import Mathlib.Data.List.Nodup

/-!
# Custody of items spread over a list of holders

Buffers, frames, and packets are owned by exactly one of many holders: caches,
ports, or running operations. The inventory of a list of holders is the
concatenation of what each of them holds. These lemmas bring one holder to the
front of the inventory and replace it, so a step that moves an item between two
places is checked on the two places alone.
-/

namespace Hack.Custody

variable {α β : Type*} {i : ℕ} {a : α} {items : α → List β} {p : α → Bool}

/-- The selected holder can be moved to the front of the list of holders. -/
theorem perm_cons_eraseIdx {holders : List α} (hget : holders[i]? = some a) :
    holders.Perm (a :: holders.eraseIdx i) := by
  obtain ⟨hi, rfl⟩ := List.getElem?_eq_some_iff.mp hget
  exact (List.getElem_cons_eraseIdx_perm hi).symm

/-- Replacing a holder puts the new one in front of the untouched others. -/
theorem set_perm_cons_eraseIdx {holders : List α} (hget : holders[i]? = some a) (b : α) :
    (holders.set i b).Perm (b :: holders.eraseIdx i) := by
  obtain ⟨hi, -⟩ := List.getElem?_eq_some_iff.mp hget
  exact List.set_perm_cons_eraseIdx hi b

/-- After a replacement a holder is the new one or an old one at another position. -/
theorem getElem?_set_cases {holders : List α} {j : ℕ} {b c : α}
    (hget : (holders.set i b)[j]? = some c) : j = i ∧ c = b ∨ j ≠ i ∧ holders[j]? = some c := by
  rw [List.getElem?_set] at hget
  split at hget
  next hij =>
    split at hget
    · exact Or.inl ⟨hij.symm, (Option.some.inj hget).symm⟩
    · cases hget
  next hij => exact Or.inr ⟨Ne.symm hij, hget⟩

/-- The inventory of all holders is that of the selected one and of the others. -/
theorem flatMap_perm {holders : List α} (hget : holders[i]? = some a) (items : α → List β) :
    (holders.flatMap items).Perm (items a ++ (holders.eraseIdx i).flatMap items) := by
  simpa using (perm_cons_eraseIdx hget).flatMap_right items

/-- After a replacement only the selected holder's part of the inventory differs. -/
theorem flatMap_set_perm {holders : List α} (hget : holders[i]? = some a) (b : α)
    (items : α → List β) :
    ((holders.set i b).flatMap items).Perm (items b ++ (holders.eraseIdx i).flatMap items) := by
  simpa using (set_perm_cons_eraseIdx hget b).flatMap_right items

/-- A change of what one of several distinct holders holds is a change of the
whole inventory by as much. -/
theorem flatMap_congr_perm [DecidableEq α] {holders : List α} (ha : a ∈ holders)
    (hnodup : holders.Nodup) {items' : α → List β} (hsame : ∀ b ≠ a, items' b = items b)
    {l l' : List β} (hone : (l ++ items a).Perm (l' ++ items' a)) :
    (l ++ holders.flatMap items).Perm (l' ++ holders.flatMap items') := by
  have hsplit : ∀ f : α → List β,
      (holders.flatMap f).Perm (f a ++ (holders.erase a).flatMap f) := fun f => by
    simpa using (List.perm_cons_erase ha).flatMap_right f
  have hrest : (holders.erase a).flatMap items' = (holders.erase a).flatMap items :=
    List.flatMap_congr fun b hb => hsame b (hnodup.mem_erase_iff.mp hb).1
  have hold := (hsplit items).append_left l
  have hnew := (hsplit items').append_left l'
  rw [← List.append_assoc] at hold hnew
  rw [hrest] at hnew
  exact (hold.trans (hone.append_right _)).trans hnew.symm

/-- Where at most one holder may hold anything, the others hold nothing. -/
theorem flatMap_eq_nil_of_one {rest : List α} (hitems : ∀ b, p b = false → items b = [])
    (ha : p a = true) (hone : (a :: rest).countP p ≤ 1) : rest.flatMap items = [] := by
  rw [List.countP_cons, if_pos ha] at hone
  have hzero : rest.countP p = 0 := by omega
  refine List.flatMap_eq_nil_iff.mpr fun b hb => hitems b ?_
  simpa using List.countP_eq_zero.mp hzero b hb

/-- Where at most one holder may hold anything, the order of the holders does not show in
the order of the inventory. -/
theorem flatMap_eq_of_perm {holders holders' : List α} (hitems : ∀ b, p b = false → items b = [])
    (hone : holders.countP p ≤ 1) (hperm : holders.Perm holders') :
    holders.flatMap items = holders'.flatMap items := by
  induction hperm with
  | nil => rfl
  | cons a _ ih =>
    have hle := List.countP_cons (p := p) (a := a) ▸ hone
    simp only [List.flatMap_cons, ih (by omega)]
  | swap a b l =>
    simp only [List.flatMap_cons]
    cases hb : p b with
    | false => simp [hitems b hb]
    | true =>
      obtain ⟨ha, -⟩ : p a = false ∧ ∀ c ∈ l, p c = false := by simpa [hb] using hone
      simp [hitems a ha]
  | trans hfirst _ ih ih' => exact (ih hone).trans (ih' (hfirst.countP_eq p ▸ hone))

end Hack.Custody
