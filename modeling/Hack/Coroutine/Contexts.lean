import Mathlib.Data.Int.Notation
import Mathlib.Data.List.Basic

/-!
# Coroutines that switch contexts

This file embeds `ctx-coroutine/coroutine.c`. A coroutine has a context of its own, which runs on
its own stack, and one of whoever resumed it; resuming and yielding swap the running context with
one of the two. The functions that use coroutines, and the main program, are given by the calls
that they make, by the stack that they need, and by what they do with the results. They may resume
each other, and may create and free coroutines; memory for these is always there. A saved context
is good for one switch, since the stack goes on from there: to switch to a context whose stack has
gone on is a fault. So is a function of a coroutine that needs more than the stack which `coro_new`
has given it, and a yield with another coroutine than the running one.
-/

namespace Hack.Coroutine

/-- `MINSIGSTKSZ`, the size of the stack of a coroutine. -/
def stackSize : ℕ := 2048

/-- What is left of a function: it returns, prints a line, needs so much of its stack up to its next
such need, yields a value with a coroutine, resumes a coroutine and goes on with the result, creates
one for a function of the handle and goes on with the handle, or frees one. -/
inductive Prog
  | ret (value : ℤ)
  | puts (line : String) (next : Prog)
  | stack (bytes : ℕ) (next : Prog)
  | yield (coro : ℕ) (value : ℤ) (next : Prog)
  | resume (coro : ℕ) (next : ℤ → Prog)
  | new (function : ℕ → Prog) (next : ℕ → Prog)
  | free (coro : ℕ) (next : Prog)

/-- What a `ucontext_t` of a coroutine holds. -/
inductive Context
  /-- Nothing, or a point from which its stack has gone on. -/
  | stale
  /-- The call of `_coro_entry_point` that `makecontext` has prepared. -/
  | entry (function : Prog)
  /-- The `swapcontext` of `coro_yield`, with what is left of the function. -/
  | yielded (rest : Prog)
  /-- The `swapcontext` of `coro_yield` in `_coro_entry_point`, behind the function. -/
  | returned
  /-- The `swapcontext` of `coro_resume`, with the coroutine whose function has called it, or the
  main program, and what is left of the caller. -/
  | resuming (caller : Option ℕ) (next : ℤ → Prog)

/-- `struct coro_t_`. -/
structure Coro where
  suspendContext : Context
  resumeContext : Context
  yieldValue : ℤ
  isCoroFinished : Bool

/-- `coro_new`, with the function applied to the new handle. -/
def coroNew (function : Prog) : Coro := ⟨.stale, .entry function, 0, false⟩

/-- The coroutines, `none` for a freed one; the coroutine on whose stack the program runs, or the
main program; what is left of it; and the lines that were printed. -/
structure State where
  coros : List (Option Coro)
  current : Option ℕ
  prog : Prog
  output : List String

/-- What a step leads to. -/
inductive Outcome
  | running (s : State)
  | exited (value : ℤ) (output : List String)
  | fault

/-- The function whose stack a context is on goes on, where it may. -/
def Context.rest : Context → Option Prog
  | .entry function => some function
  | .yielded rest => some rest
  | _ => none

/-- Whether there is nothing to switch to. -/
def Context.isStale : Context → Bool
  | .stale => true
  | _ => false

/-- A coroutine is entered: its caller waits, and its function goes on. -/
def State.enter (s : State) (c : ℕ) (coro : Coro) (next : ℤ → Prog) (rest : Prog) : State :=
  { s with
    coros := s.coros.set c (some { coro with
      suspendContext := .resuming s.current next
      resumeContext := .stale })
    current := some c
    prog := rest }

/-- `coro_resume`. -/
def coroResume (s : State) (c : ℕ) (next : ℤ → Prog) : Outcome :=
  match s.coros[c]? with
  | some (some coro) =>
    if coro.isCoroFinished then .running { s with prog := next (-1) }
    else
      match coro.resumeContext.rest with
      | some rest => .running (s.enter c coro next rest)
      | none => .fault
  | _ => .fault

/-- `coro_yield` from a point of the coroutine, and the end of the `coro_resume` that it returns
to. -/
def coroYield (s : State) (c : ℕ) (coro : Coro) (value : ℤ) (saved : Context) : Outcome :=
  match coro.suspendContext with
  | .resuming caller next =>
    .running { s with
      coros := s.coros.set c (some { coro with
        suspendContext := .stale
        resumeContext := saved
        yieldValue := value })
      current := caller
      prog := next value }
  | _ => .fault

/-- `coro_free`. The stack must not be in use. -/
def coroFree (s : State) (c : ℕ) (next : Prog) : Outcome :=
  match s.coros[c]? with
  | some (some coro) =>
    if coro.resumeContext.isStale then .fault
    else .running { s with coros := s.coros.set c none, prog := next }
  | _ => .fault

/-- The coroutine on whose stack the program runs. -/
def State.running (s : State) : Option (ℕ × Coro) :=
  s.current.bind fun c => ((s.coros[c]?).join).map fun coro => (c, coro)

/-- A function on the stack of a coroutine needs more than there is. -/
def overflows (owner : Option ℕ) (bytes : ℕ) : Bool := owner.isSome && stackSize < bytes

/-- One step of the program. Where a function returns, `_coro_entry_point` notes that the coroutine
is finished and yields for the last time. -/
def step (s : State) : Outcome :=
  match s.prog with
  | .puts line next => .running { s with prog := next, output := s.output ++ [line] }
  | .stack bytes next =>
    if overflows s.current bytes then .fault else .running { s with prog := next }
  | .resume c next => coroResume s c next
  | .new function next =>
    .running { s with
      coros := s.coros ++ [some (coroNew (function s.coros.length))]
      prog := next s.coros.length }
  | .free c next => coroFree s c next
  | .yield c value next =>
    match s.running with
    | some (c', coro) =>
      if c' = c then coroYield s c coro value (.yielded next) else .fault
    | none => .fault
  | .ret value =>
    match s.current with
    | none => .exited value s.output
    | some _ =>
      match s.running with
      | some (c, coro) => coroYield s c { coro with isCoroFinished := true } value .returned
      | none => .fault

/-- A number of steps, or fewer if the program ends. -/
def steps : ℕ → State → Outcome
  | 0, s => .running s
  | n + 1, s =>
    match step s with
    | .running s => steps n s
    | outcome => outcome

/-- The main program before its first step. -/
def start (main : Prog) : State := ⟨[], none, main, []⟩

variable {s s' s'' : State} {n n' : ℕ} {outcome : Outcome}

/-- One state leads to another one in a number of steps. -/
def Leads (n : ℕ) (s s' : State) : Prop := ∀ m, steps (n + m) s = steps m s'

theorem Leads.refl (s : State) : Leads 0 s s := fun m => by rw [Nat.zero_add]

theorem Leads.trans (h : Leads n s s') (h' : Leads n' s' s'') : Leads (n + n') s s'' :=
  fun m => by rw [Nat.add_assoc, h, h']

theorem Leads.of_step (h : step s = .running s') : Leads 1 s s' :=
  fun m => by rw [Nat.add_comm, steps, h]

/-- The program has ended. -/
def Outcome.Final (outcome : Outcome) : Prop := ∀ s, outcome ≠ .running s

theorem final_exited (value : ℤ) (output : List String) : (Outcome.exited value output).Final :=
  fun _ h => Outcome.noConfusion h

theorem final_fault : Outcome.fault.Final := fun _ h => Outcome.noConfusion h

/-- The step with which a program ends. -/
theorem steps_of_step (hstep : step s = outcome) (hfinal : outcome.Final) (m : ℕ) :
    steps (m + 1) s = outcome := by
  rw [steps, hstep]
  cases outcome with
  | running t => exact absurd rfl (hfinal t)
  | exited value output => rfl
  | fault => rfl

/-- A program that leads to its last step ends. -/
theorem Leads.ends (h : Leads n s s') (hstep : step s' = outcome) (hfinal : outcome.Final) :
    steps (n + 1) s = outcome := by
  rw [h, steps_of_step hstep hfinal]

/-- A program that has ended stays so. -/
theorem steps_add (h : steps n s = outcome) (hfinal : outcome.Final) (m : ℕ) :
    steps (n + m) s = outcome := by
  induction n generalizing s with
  | zero => exact absurd h.symm (hfinal s)
  | succ n ih =>
    rw [Nat.add_right_comm]
    rw [steps] at h ⊢
    cases hstep : step s with
    | running t =>
      rw [hstep] at h
      exact ih h
    | exited value output =>
      rw [hstep] at h
      exact h
    | fault =>
      rw [hstep] at h
      exact h

/-- A program ends in one way only. -/
theorem steps_unique {outcome' : Outcome} (h : steps n s = outcome) (hfinal : outcome.Final)
    (h' : steps n' s = outcome') (hfinal' : outcome'.Final) : outcome = outcome' := by
  rw [← steps_add h hfinal n', ← steps_add h' hfinal' n, Nat.add_comm]

/-- The program still runs after a number of steps. -/
def Lasts (n : ℕ) (s : State) : Prop := ∃ t, steps n s = .running t

/-- It has run after fewer steps too. -/
theorem Lasts.of_le (h : Lasts n s) (hle : n' ≤ n) : Lasts n' s := by
  obtain ⟨t, ht⟩ := h
  cases hsteps : steps n' s with
  | running t' => exact ⟨t', hsteps⟩
  | exited value output =>
    have hstays := steps_add hsteps (final_exited value output) (n - n')
    rw [Nat.add_sub_cancel' hle, ht] at hstays
    cases hstays
  | fault =>
    have hstays := steps_add hsteps final_fault (n - n')
    rw [Nat.add_sub_cancel' hle, ht] at hstays
    cases hstays

theorem Leads.lasts (h : Leads n s s') (hlasts : Lasts n' s') : Lasts (n + n') s := by
  obtain ⟨t, ht⟩ := hlasts
  exact ⟨t, by rw [h, ht]⟩

end Hack.Coroutine
