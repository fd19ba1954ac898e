import Mathlib.Data.List.Basic

/-!
# Computations that test a condition

A computation with early exits often does no more than test a condition: if it holds, the
computation ends with a value that is known beforehand, and otherwise with one error. Such
computations can be put behind each other and repeated over a list. The condition of the whole is
then built from the conditions of the parts.
-/

namespace Hack

variable {ε α β : Type}

/-- The computation ends with the value `a` if `P` holds and with the error `e` otherwise. -/
structure Decides (e : ε) (m : Except ε α) (a : α) (P : Prop) : Prop where
  ok : P → m = .ok a
  error : ¬P → m = .error e

namespace Decides

variable {e : ε} {m : Except ε α} {a : α} {P Q : Prop}

/-- Nothing is tested. -/
theorem of_ok (hm : m = .ok a) : Decides e m a True :=
  ⟨fun _ => hm, fun h => absurd trivial h⟩

/-- The condition may be replaced by an equivalent one. -/
theorem congr (h : Decides e m a P) (hiff : P ↔ Q) : Decides e m a Q :=
  ⟨fun hq => h.ok (hiff.mpr hq), fun hq => h.error fun hp => hq (hiff.mp hp)⟩

/-- Two tests behind each other. -/
theorem bind {f : α → Except ε β} {b : β} (hm : Decides e m a P)
    (hf : P → Decides e (f a) b Q) : Decides e (m >>= f) b (P ∧ Q) := by
  constructor
  · rintro ⟨hp, hq⟩
    rw [hm.ok hp]
    exact (hf hp).ok hq
  · intro hnot
    by_cases hp : P
    · rw [hm.ok hp]
      exact (hf hp).error fun hq => hnot ⟨hp, hq⟩
    · rw [hm.error hp]
      rfl

/-- The value of a test may be changed behind it. -/
theorem map (hm : Decides e m a P) (g : α → β) : Decides e (m >>= fun a => .ok (g a)) (g a) P := by
  have hbind : Decides e (m >>= fun a => .ok (g a)) (g a) (P ∧ True) :=
    hm.bind fun _ => of_ok rfl
  rwa [and_true] at hbind

section Fold

variable {f : α → β → Except ε α} {value : List β → α} {Pass : List β → Prop} {xs : List β}

/-- The rest of a test that is repeated over a list. -/
theorem foldlM_append {done : List β} (hpass : Pass done)
    (hback : ∀ done rest, Pass (done ++ rest) → Pass done)
    (hstep : ∀ done, Pass done → ∀ x ∈ xs,
      Decides e (f (value done) x) (value (done ++ [x])) (Pass (done ++ [x]))) :
    Decides e (xs.foldlM f (value done)) (value (done ++ xs)) (Pass (done ++ xs)) := by
  induction xs generalizing done with
  | nil =>
    rw [List.append_nil]
    exact (of_ok rfl).congr (iff_of_true trivial hpass)
  | cons x xs ih =>
    have hfirst := hstep done hpass x List.mem_cons_self
    have hrest : Pass (done ++ [x]) → _ := fun hpass' =>
      ih hpass' fun done' h y hy => hstep done' h y (List.mem_cons_of_mem x hy)
    rw [List.foldlM_cons, List.append_cons]
    apply (hfirst.bind hrest).congr
    exact and_iff_right_of_imp (hback (done ++ [x]) xs)

variable (value Pass)

/-- A test that is repeated over a list. The value and the condition are those of the elements
that are done. -/
theorem foldlM (hvalue : value [] = a) (hpass : Pass [])
    (hback : ∀ done rest, Pass (done ++ rest) → Pass done)
    (hstep : ∀ done, Pass done → ∀ x ∈ xs,
      Decides e (f (value done) x) (value (done ++ [x])) (Pass (done ++ [x]))) :
    Decides e (xs.foldlM f a) (value xs) (Pass xs) := by
  rw [← hvalue]
  exact foldlM_append hpass hback hstep

end Fold

end Decides

end Hack
