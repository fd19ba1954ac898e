import Hack.Machine
import Mathlib.Algebra.Group.Nat.Defs

/-!
# The spin lock

This file embeds `sync-spin-atomic/main.c`. The lock is taken by an atomic compare and exchange
that is tried again until it succeeds, and given back by an atomic store. A thread reads the
counter, adds one, and writes it back in three steps, so its exactness rests on the lock alone.
The counter is an `int`: it counts the critical sections modulo `2 ^ 32`.
-/

namespace Hack.SpinAtomic

/-- `atomic_compare_exchange`: whether it succeeds, and the word afterwards. -/
def atomicCompareExchange (word compare exchange : Int32) : Bool × Int32 :=
  if word = compare then (true, exchange) else (false, word)

/-- `atomic_store`, which stores zero whatever value it is given. -/
def atomicStore (_value : Int32) : Int32 := 0

/-- Where a thread is in `trythis`. -/
inductive Pc
  /-- It is about to try the lock. -/
  | lock
  /-- It is about to read the counter. -/
  | read
  /-- It has read the counter and is about to add one. -/
  | add (value : Int32)
  /-- It is about to write the counter. -/
  | write (value : Int32)
  /-- It is about to print and to count in a variable of its own. -/
  | work
  /-- It is about to give the lock back. -/
  | unlock
deriving DecidableEq

variable {Thread : Type*} {completed : ℕ} {i j : Thread}

/-- The shared variables, and where each thread is. -/
structure State (Thread : Type*) where
  locked : Int32
  counter : Int32
  pc : Thread → Pc

/-- A thread moves on. -/
def State.goto [DecidableEq Thread] (s : State Thread) (i : Thread) (pc : Pc) : State Thread :=
  { s with pc := Function.update s.pc i pc }

/-- The next step of a thread, which begins again when it has given the lock back. -/
def State.step [DecidableEq Thread] (s : State Thread) (i : Thread) : State Thread :=
  match s.pc i with
  | .lock =>
    let (success, locked) := atomicCompareExchange s.locked 0 1
    { s with locked }.goto i (if success then .read else .lock)
  | .read => s.goto i (.add s.counter)
  | .add value => s.goto i (.write (value + 1))
  | .write value => { s with counter := value }.goto i .work
  | .work => s.goto i .unlock
  | .unlock => { s with locked := atomicStore 0 }.goto i .lock

/-- The threads, any of which may take the next step. -/
def spinlock (Thread : Type*) [DecidableEq Thread] : Machine (State Thread) Thread where
  start s := s.locked = 0 ∧ s.counter = 0 ∧ ∀ i, s.pc i = .lock
  next s i := some (s.step i)

/-- A thread is between a successful lock and its unlock. -/
def State.Inside (s : State Thread) (i : Thread) : Prop := s.pc i ≠ .lock

/-- A critical section is completed when its thread gives the lock back. -/
def completes (s : State Thread) (i : Thread) : List Thread := if s.pc i = .unlock then [i] else []

/-- What a thread in a critical section knows of the counter, after a number of completed
ones. -/
def Pc.Counts (counter : Int32) (completed : ℕ) : Pc → Prop
  | .lock => False
  | .read => counter = .ofNat completed
  | .add value => counter = .ofNat completed ∧ value = .ofNat completed
  | .write value => counter = .ofNat completed ∧ value = .ofNat (completed + 1)
  | .work => counter = .ofNat (completed + 1)
  | .unlock => counter = .ofNat (completed + 1)

/-- The invariant: the lock is free and the counter exact, or one thread has the lock. -/
inductive State.Inv (s : State Thread) (completed : ℕ) : Prop
  | free (hlocked : s.locked = 0) (hpc : ∀ i, s.pc i = .lock)
      (hcounter : s.counter = .ofNat completed)
  | held (i : Thread) (hlocked : s.locked = 1) (hpc : ∀ j, j ≠ i → s.pc j = .lock)
      (hcounts : (s.pc i).Counts s.counter completed)

/-- A thread in its critical section is the one that has the lock. -/
theorem State.Inv.exclusive {s : State Thread} (hinv : s.Inv completed) (hi : s.Inside i)
    (hj : s.Inside j) : i = j := by
  cases hinv with
  | free _ hpc _ => exact absurd (hpc i) hi
  | held k _ hpc _ =>
    have hik : i = k := by_contra fun hne => hi (hpc i hne)
    have hjk : j = k := by_contra fun hne => hj (hpc j hne)
    exact hik.trans hjk.symm

/-- The lock word says whether some thread is in its critical section. -/
theorem State.Inv.locked_eq_one_iff {s : State Thread} (hinv : s.Inv completed) :
    s.locked = 1 ↔ ∃ i, s.Inside i := by
  cases hinv with
  | free hlocked hpc _ => simp [hlocked, State.Inside, hpc]
  | held i hlocked _ hcounts =>
    refine iff_of_true hlocked ⟨i, fun hpc => ?_⟩
    simp [hpc, Pc.Counts] at hcounts

/-- With no thread in its critical section, the counter is the number of completed ones. -/
theorem State.Inv.counter_eq {s : State Thread} (hinv : s.Inv completed)
    (hnone : ∀ i, ¬ s.Inside i) :
    s.counter = .ofNat completed := by
  cases hinv with
  | free _ _ hcounter => exact hcounter
  | held i hlocked hpc hcounts =>
    have hpc : s.pc i = .lock := not_not.mp (hnone i)
    simp [hpc, Pc.Counts] at hcounts

variable [DecidableEq Thread]

@[simp] theorem State.goto_locked (s : State Thread) (i : Thread) (pc : Pc) :
    (s.goto i pc).locked = s.locked := rfl

@[simp] theorem State.goto_counter (s : State Thread) (i : Thread) (pc : Pc) :
    (s.goto i pc).counter = s.counter := rfl

@[simp] theorem State.goto_pc_self (s : State Thread) (i : Thread) (pc : Pc) :
    (s.goto i pc).pc i = pc := by
  simp [State.goto]

@[simp] theorem State.goto_pc_of_ne (s : State Thread) (pc : Pc) (hne : j ≠ i) :
    (s.goto i pc).pc j = s.pc j := by
  simp [State.goto, hne]

/-- A thread that moves to where it is changes nothing. -/
theorem State.goto_self {s : State Thread} {pc : Pc} (hpc : s.pc i = pc) : s.goto i pc = s := by
  simp [State.goto, ← hpc]

/-- Trying a free lock takes it. -/
theorem State.step_of_free {s : State Thread} (hpc : s.pc i = .lock) (hlocked : s.locked = 0) :
    s.step i = { s with locked := 1 }.goto i .read := by
  simp [State.step, hpc, atomicCompareExchange, hlocked]

/-- Trying a lock that is taken changes nothing. -/
theorem State.step_of_taken {s : State Thread} (hpc : s.pc i = .lock) (hlocked : s.locked = 1) :
    s.step i = s := by
  have htry : atomicCompareExchange s.locked 0 1 = (false, s.locked) := by
    simp [atomicCompareExchange, hlocked]
  simp only [State.step, hpc, htry]
  exact State.goto_self hpc

/-- The thread that has the lock keeps the invariant: it counts once, between its lock and its
unlock. -/
theorem State.inv_step_of_holder {s : State Thread} (hlocked : s.locked = 1)
    (hpc : ∀ j, j ≠ i → s.pc j = .lock) (hcounts : (s.pc i).Counts s.counter completed) :
    (s.step i).Inv (completed + (completes s i).length) := by
  cases hi : s.pc i with
  | lock => simp [hi, Pc.Counts] at hcounts
  | unlock =>
    simp only [hi, Pc.Counts] at hcounts
    simp only [State.step, completes, hi, if_true, List.length_singleton]
    refine .free rfl (fun j => ?_) hcounts
    rcases eq_or_ne j i with rfl | hne
    · simp
    · simpa [hne] using hpc j hne
  | read | add | write | work =>
    simp only [hi, Pc.Counts] at hcounts
    simp only [State.step, completes, hi, reduceCtorEq, if_false, List.length_nil, Nat.add_zero]
    refine .held i hlocked (fun j hne => by simpa [hne] using hpc j hne) ?_
    simp [Pc.Counts, hcounts, Int32.ofNat_add]

/-- Every step keeps the invariant. -/
theorem State.Inv.step {s : State Thread} (hinv : s.Inv completed) (i : Thread) :
    (s.step i).Inv (completed + (completes s i).length) := by
  cases hinv with
  | free hlocked hpc hcounter =>
    have hnone : completes s i = [] := by simp [completes, hpc]
    rw [State.step_of_free (hpc i) hlocked, hnone]
    exact .held i rfl (fun j hne => by simpa [hne] using hpc j) (by simpa [Pc.Counts])
  | held j hlocked hpc hcounts =>
    rcases eq_or_ne i j with rfl | hne
    · exact State.inv_step_of_holder hlocked hpc hcounts
    · have hnone : completes s i = [] := by simp [completes, hpc i hne]
      rw [State.step_of_taken (hpc i hne) hlocked, hnone]
      exact .held j hlocked hpc hcounts

/-- The invariant holds after any interleaving, of the number of completed critical sections. -/
theorem inv_of_reachable {s : State Thread} {log : List Thread}
    (hreach : ((spinlock Thread).observed completes).Reachable (s, log)) : s.Inv log.length := by
  refine hreach.observed_invariant (fun s log => s.Inv log.length) ?_ ?_
  · rintro s ⟨hlocked, hcounter, hpc⟩
    exact .free hlocked hpc hcounter
  · intro s log i s' hinv hcond hstep
    obtain rfl : s.step i = s' := Option.some_inj.mp hstep
    simpa using hinv.step i

/-- In every interleaving of any threads the critical sections exclude each other, the lock word
is one exactly during them, and between them the counter is the number of the completed ones as
an `int`. -/
theorem spinlock_excludes_and_counts {s : State Thread} {log : List Thread}
    (hreach : ((spinlock Thread).observed completes).Reachable (s, log)) :
    (∀ i j, s.Inside i → s.Inside j → i = j) ∧ (s.locked = 1 ↔ ∃ i, s.Inside i) ∧
      ((∀ i, ¬ s.Inside i) → s.counter = .ofNat log.length ∧
        (log.length < 2 ^ 31 → s.counter.toInt = log.length)) := by
  have hinv := inv_of_reachable hreach
  refine ⟨fun i j => hinv.exclusive, hinv.locked_eq_one_iff, fun hnone => ?_⟩
  have hcounter := hinv.counter_eq hnone
  exact ⟨hcounter, fun hlt => by rw [hcounter, Int32.toInt_ofNat_of_lt hlt]⟩

/-- Two threads, the first of which has counted and given the lock back, the second of which is
in its critical section. -/
theorem spinlock_excludes_and_counts_two :
    ∃ s : State Bool, ∃ log, ((spinlock Bool).observed completes).Reachable (s, log) ∧
      log = [false] ∧ s.locked = 1 ∧ (∀ i, s.Inside i → i = true) := by
  have hstart : ((spinlock Bool).observed completes).Reachable
      (⟨0, 0, fun _ => .lock⟩, []) := .start ⟨⟨rfl, rfl, fun _ => rfl⟩, rfl⟩
  obtain ⟨s, log, hrun, hpc, hlog⟩ : ∃ s log, ((spinlock Bool).observed completes).run
      (⟨0, 0, fun _ => .lock⟩, []) [false, true, false, false, false, false, false, true] =
        some (s, log) ∧ s.pc true = .read ∧ log = [false] := ⟨_, _, rfl, rfl, rfl⟩
  have hreach := hstart.of_run hrun
  have htrue : s.Inside true := by simp [State.Inside, hpc]
  obtain ⟨hexclusive, hlocked, -⟩ := spinlock_excludes_and_counts hreach
  exact ⟨s, log, hreach, hlog, hlocked.mpr ⟨true, htrue⟩, fun i hi => hexclusive i true hi htrue⟩

/-- One thread at rest. -/
def resting (counter : Int32) : State Unit := ⟨0, counter, fun _ => .lock⟩

/-- One critical section of one thread. -/
theorem run_section (counter : Int32) (log : List Unit) :
    ((spinlock Unit).observed completes).run (resting counter, log) (List.replicate 6 ()) =
      some (resting (counter + 1), log ++ [()]) := by
  calc _ = some (resting (counter + 1), log ++ [] ++ [] ++ [] ++ [] ++ [] ++ [()]) := rfl
    _ = _ := by simp

/-- One thread completes any number of critical sections. -/
theorem reachable_resting (n : ℕ) : ((spinlock Unit).observed completes).Reachable
    (resting (.ofNat n), List.replicate n ()) := by
  induction n with
  | zero => exact .start ⟨⟨rfl, rfl, fun _ => rfl⟩, rfl⟩
  | succ n ih =>
    have hrun := run_section (.ofNat n) (List.replicate n ())
    rw [← List.replicate_succ'] at hrun
    simpa [Int32.ofNat_add] using ih.of_run hrun

/-- The counter is an `int`: after `2 ^ 31` critical sections of one thread, with no thread in
one, it is negative. -/
theorem spinlock_counter_overflows :
    ∃ s : State Unit, ∃ log, ((spinlock Unit).observed completes).Reachable (s, log) ∧
      (∀ i, ¬ s.Inside i) ∧ log.length = 2 ^ 31 ∧ s.counter.toInt ≠ log.length := by
  have hlength : (List.replicate (2 ^ 31) ()).length = 2 ^ 31 := List.length_replicate
  refine ⟨_, _, reachable_resting (2 ^ 31), fun _ hi => hi rfl, hlength, ?_⟩
  rw [hlength]
  decide

end Hack.SpinAtomic
