import Hack.Coroutine.Contexts
import Mathlib.Data.List.Forall2

/-!
# Coroutines are generators

What the coroutines are for can be said without contexts: a coroutine is a function that stops at
each of its yields, and resuming it is a call that runs it up to the next stop. The stops of a
coroutine are then values that are computed by recursion. This file defines that meaning and shows
that the context switches have it, for functions that resume each other in any way, until one of
them resumes a coroutine that is waiting for it, frees one that is in use, yields for another one
than itself, or needs more than the 2048 bytes of its stack.
-/

namespace Hack.Coroutine

/-- A coroutine: it can be resumed with the rest of its function, it has been resumed and not
stopped yet, its function has returned, or it has been freed. -/
inductive Gen
  | ready (rest : Prog)
  | active
  | finished
  | freed

/-- Where a function stops. -/
inductive Stop
  | yielded (value : ℤ) (rest : Prog)
  | returned (value : ℤ)

/-- The value of a stop. -/
def Stop.value : Stop → ℤ
  | .yielded value _ => value
  | .returned value => value

/-- The coroutine after a stop. -/
def Stop.gen : Stop → Gen
  | .yielded _ rest => .ready rest
  | .returned _ => .finished

/-- What is left of the function of a coroutine at a stop. -/
def Stop.prog (owner : Option ℕ) : Stop → Prog
  | .yielded value rest => .yield (owner.getD 0) value rest
  | .returned value => .ret value

/-- What running a function leads to. -/
inductive Result
  | stopped (gens : List Gen) (stop : Stop) (output : List String)
  | fault
  | outOfFuel

/-- A result with more output in front of it. -/
def Result.after (output : List String) : Result → Result
  | .stopped gens stop output' => .stopped gens stop (output ++ output')
  | .fault => .fault
  | .outOfFuel => .outOfFuel

/-- A function runs up to its next stop, on the stack of a coroutine or of the main program. -/
def evaluate : ℕ → List Gen → Option ℕ → Prog → Result
  | 0, _, _, _ => .outOfFuel
  | fuel + 1, gens, owner, prog =>
    match prog with
    | .ret value => .stopped gens (.returned value) []
    | .puts line next => (evaluate fuel gens owner next).after [line]
    | .stack bytes next =>
      if overflows owner bytes then .fault else evaluate fuel gens owner next
    | .yield c value next =>
      if owner = some c then .stopped gens (.yielded value next) [] else .fault
    | .new function next =>
      evaluate fuel (gens ++ [.ready (function gens.length)]) owner (next gens.length)
    | .free c next =>
      match gens[c]? with
      | some (.ready _) => evaluate fuel (gens.set c .freed) owner next
      | some .finished => evaluate fuel (gens.set c .freed) owner next
      | _ => .fault
    | .resume c next =>
      match gens[c]? with
      | some .finished => evaluate fuel gens owner (next (-1))
      | some (.ready rest) =>
        match evaluate fuel (gens.set c .active) (some c) rest with
        | .stopped gens stop output =>
          (evaluate fuel (gens.set c stop.gen) owner (next stop.value)).after output
        | result => result
      | _ => .fault

/-! ### What the contexts represent -/

/-- A coroutine of the code stands for a generator. -/
def Represents : Gen → Option Coro → Prop
  | .ready rest, some coro => coro.isCoroFinished = false ∧
    coro.resumeContext.isStale = false ∧ coro.resumeContext.rest = some rest
  | .active, some coro => coro.isCoroFinished = false ∧ coro.resumeContext = .stale ∧
    ∃ caller next, coro.suspendContext = .resuming caller next
  | .finished, some coro => coro.isCoroFinished = true ∧ coro.resumeContext = .returned
  | .freed, none => True
  | _, _ => False

theorem represents_freed : Represents .freed none := trivial

variable {rest : Prog} {coro : Coro}

/-- A coroutine that is being resumed. -/
theorem represents_active (h : Represents (.ready rest) (some coro)) (caller : Option ℕ)
    (next : ℤ → Prog) : Represents .active (some { coro with
      suspendContext := .resuming caller next
      resumeContext := .stale }) :=
  ⟨h.1, rfl, caller, next, rfl⟩

/-- The coroutines of the code stand for generators. -/
def Stands (gens : List Gen) (coros : List (Option Coro)) : Prop :=
  List.Forall₂ Represents gens coros

variable {gens gens' : List Gen} {coros : List (Option Coro)} {c : ℕ} {gen : Gen}

section Stands

variable (h : Stands gens coros)
include h

theorem Stands.length_eq : gens.length = coros.length :=
  List.Forall₂.length_eq h

/-- The coroutine of a generator. -/
theorem Stands.exists_coro (hgen : gens[c]? = some gen) :
    ∃ coro, coros[c]? = some coro ∧ Represents gen coro := by
  obtain ⟨hc, rfl⟩ := List.getElem?_eq_some_iff.mp hgen
  have hc' : c < coros.length := h.length_eq ▸ hc
  exact ⟨coros[c], List.getElem?_eq_getElem hc', List.Forall₂.get h hc hc'⟩

/-- A handle without a generator is none of the code either. -/
theorem Stands.getElem?_eq_none (hgen : gens[c]? = none) : coros[c]? = none := by
  rw [List.getElem?_eq_none_iff] at hgen ⊢
  rw [← h.length_eq]
  exact hgen

/-- A generator and its coroutine change. -/
theorem Stands.set {coro : Option Coro} (hnew : Represents gen coro) (c : ℕ) :
    Stands (gens.set c gen) (coros.set c coro) := by
  induction h generalizing c with
  | nil => exact .nil
  | cons hhead htail ih =>
    cases c with
    | zero => exact .cons hnew htail
    | succ c => exact .cons hhead (ih c)

/-- One more generator. -/
theorem Stands.concat {coro : Option Coro} (hnew : Represents gen coro) :
    Stands (gens ++ [gen]) (coros ++ [coro]) :=
  List.rel_append h (.cons hnew .nil)

end Stands

/-! ### The simulation -/

/-- The coroutines that are in use stay as they are. -/
def Keeps (gens gens' : List Gen) (s s' : State) : Prop :=
  ∀ c : ℕ, gens[c]? = some .active → gens'[c]? = some .active ∧ s'.coros[c]? = s.coros[c]?

theorem Keeps.refl (gens : List Gen) (s : State) : Keeps gens gens s s := fun _ h => ⟨h, rfl⟩

theorem Keeps.trans {gens'' : List Gen} {s s' s'' : State} (h : Keeps gens gens' s s')
    (h' : Keeps gens' gens'' s' s'') : Keeps gens gens'' s s'' := fun c hc =>
  ⟨(h' c (h c hc).1).1, (h' c (h c hc).1).2.trans (h c hc).2⟩

/-- A coroutine that is not in use changes. -/
theorem Keeps.set {gen' : Gen} (hgen : gens[c]? = some gen) (hne : gen ≠ .active) {s s' : State}
    {coro : Option Coro} (hcoros : s'.coros = s.coros.set c coro) :
    Keeps gens (gens.set c gen') s s' := by
  intro c' hc'
  have hother : c ≠ c' := by
    rintro rfl
    exact hne (Option.some_inj.mp (hgen.symm.trans hc'))
  rw [hcoros, List.getElem?_set_ne hother, List.getElem?_set_ne hother]
  exact ⟨hc', rfl⟩

/-- The code does from a state on what the generators do. Where these have not stopped yet, the
code has made at least as many steps as there were calls in each other. -/
def Simulates (fuel : ℕ) (s : State) (gens : List Gen) : Result → Prop
  | .stopped gens' stop output => ∃ n s', Leads n s s' ∧ Stands gens' s'.coros ∧
    s'.current = s.current ∧ s'.prog = stop.prog s.current ∧ s'.output = s.output ++ output ∧
    Keeps gens gens' s s'
  | .fault => ∃ n s', Leads n s s' ∧ step s' = .fault
  | .outOfFuel => Lasts fuel s

variable {s s' : State} {fuel : ℕ} {result : Result} {output : List String} {stop : Stop}

/-- The code first does some steps on its own stack. -/
theorem Simulates.after {n : ℕ} (h : Simulates fuel s' gens' result) (hleads : Leads (n + 1) s s')
    (hcurrent : s'.current = s.current) (houtput : s'.output = s.output ++ output)
    (hkeeps : Keeps gens gens' s s') : Simulates (fuel + 1) s gens (result.after output) := by
  cases result with
  | stopped gens'' stop output' =>
    obtain ⟨n', t, hleads', hstands, hcurrent', hprog, houtput', hkeeps'⟩ := h
    refine ⟨_, t, hleads.trans hleads', hstands, hcurrent'.trans hcurrent, hcurrent ▸ hprog, ?_,
      hkeeps.trans hkeeps'⟩
    rw [houtput', houtput, List.append_assoc]
  | fault =>
    obtain ⟨n', t, hleads', hfault⟩ := h
    exact ⟨_, t, hleads.trans hleads', hfault⟩
  | outOfFuel => exact (hleads.lasts h).of_le (by omega)

/-- The same without output. -/
theorem Simulates.next (h : Simulates fuel s' gens' result) (hstep : step s = .running s')
    (hcurrent : s'.current = s.current) (houtput : s'.output = s.output)
    (hkeeps : Keeps gens gens' s s') : Simulates (fuel + 1) s gens result := by
  have hresult : result.after [] = result := by cases result <;> rfl
  rw [← hresult]
  exact h.after (Leads.of_step hstep) hcurrent (houtput.trans (List.append_nil _).symm) hkeeps

/-- A coroutine that is not in use is freed. -/
theorem step_free {next : Prog} (hprog : s.prog = .free c next)
    (hcoro : s.coros[c]? = some (some coro)) (hcontext : coro.resumeContext.isStale = false) :
    step s = .running { s with coros := s.coros.set c none, prog := next } := by
  simp [step, hprog, coroFree, hcoro, hcontext]

/-- A finished coroutine is resumed. -/
theorem step_resume_finished {next : ℤ → Prog} (hprog : s.prog = .resume c next)
    (hcoro : s.coros[c]? = some (some coro)) (hfinished : coro.isCoroFinished = true) :
    step s = .running { s with prog := next (-1) } := by
  simp [step, hprog, coroResume, hcoro, hfinished]

/-- A coroutine is resumed. -/
theorem step_resume {next : ℤ → Prog} (hprog : s.prog = .resume c next)
    (hcoro : s.coros[c]? = some (some coro)) (hfinished : coro.isCoroFinished = false)
    (hrest : coro.resumeContext.rest = some rest) :
    step s = .running (s.enter c coro next rest) := by
  simp [step, hprog, coroResume, hcoro, hfinished, hrest]

/-- A coroutine stops and returns to its caller. -/
theorem step_stop (hcurrent : s.current = some c) (hprog : s.prog = stop.prog (some c))
    (hcoro : s.coros[c]? = some (some coro)) {caller : Option ℕ} {next : ℤ → Prog}
    (hsuspend : coro.suspendContext = .resuming caller next)
    (hfinished : coro.isCoroFinished = false) : ∃ coro', Represents stop.gen (some coro') ∧
      step s = .running { s with
        coros := s.coros.set c (some coro')
        current := caller
        prog := next stop.value } := by
  have hrunning : s.running = some (c, coro) := by
    rw [State.running, hcurrent, Option.bind_some, hcoro]
    rfl
  cases stop with
  | yielded value rest =>
    refine ⟨{ coro with
      suspendContext := .stale
      resumeContext := .yielded rest
      yieldValue := value }, ⟨hfinished, rfl, rfl⟩, ?_⟩
    simp [step, hprog, Stop.prog, hrunning, coroYield, hsuspend, Stop.value]
  | returned value =>
    refine ⟨⟨.stale, .returned, value, true⟩, ⟨rfl, rfl⟩, ?_⟩
    simp [step, hprog, Stop.prog, hcurrent, hrunning, coroYield, hsuspend, Stop.value]

/-- A generator that cannot be used: there is none, it is in use, or it has been freed. -/
def Unusable (gen : Option Gen) : Prop := (∀ rest, gen ≠ some (.ready rest)) ∧ gen ≠ some .finished

/-- What the code finds where a generator cannot be used. -/
theorem Stands.unusable (hstands : Stands gens coros) (hgen : Unusable gens[c]?) :
    (∀ coro, coros[c]? ≠ some (some coro)) ∨ ∃ coro, coros[c]? = some (some coro) ∧
      coro.isCoroFinished = false ∧ coro.resumeContext = .stale := by
  cases hget : gens[c]? with
  | none => exact .inl fun coro => by simp [hstands.getElem?_eq_none hget]
  | some gen =>
    obtain ⟨coro, hcoro, hrep⟩ := hstands.exists_coro hget
    rw [hget] at hgen
    cases gen with
    | ready rest => exact absurd rfl (hgen.1 rest)
    | finished => exact absurd rfl hgen.2
    | active =>
      cases coro with
      | none => exact hrep.elim
      | some coro => exact .inr ⟨coro, hcoro, hrep.1, hrep.2.1⟩
    | freed =>
      cases coro with
      | none => exact .inl fun coro => by simp [hcoro]
      | some coro => exact hrep.elim

/-- What the code finds where a generator has not been freed. -/
theorem Stands.exists_some (hstands : Stands gens coros) (hgen : gens[c]? = some gen)
    (hne : gen ≠ .freed) : ∃ coro, coros[c]? = some (some coro) ∧ Represents gen (some coro) := by
  obtain ⟨_ | coro, hcoro, hrep⟩ := hstands.exists_coro hgen
  · cases gen <;> first | exact hrep.elim | exact absurd rfl hne
  · exact ⟨coro, hcoro, hrep⟩

/-- A coroutine that cannot be used is not freed. -/
theorem step_free_fault {next : Prog} (hprog : s.prog = .free c next)
    (hstands : Stands gens s.coros) (hgen : Unusable gens[c]?) : step s = .fault := by
  rw [step, hprog]
  dsimp only
  rw [coroFree]
  rcases hstands.unusable hgen with hnone | ⟨coro, hcoro, -, hstale⟩
  · split
    next coro hcoro => exact absurd hcoro (hnone coro)
    next => rfl
  · simp [hcoro, hstale, Context.isStale]

/-- A coroutine that cannot be used is not resumed. -/
theorem step_resume_fault {next : ℤ → Prog} (hprog : s.prog = .resume c next)
    (hstands : Stands gens s.coros) (hgen : Unusable gens[c]?) : step s = .fault := by
  rw [step, hprog]
  dsimp only
  rw [coroResume]
  rcases hstands.unusable hgen with hnone | ⟨coro, hcoro, hfinished, hstale⟩
  · split
    next coro hcoro => exact absurd hcoro (hnone coro)
    next => rfl
  · simp [hcoro, hfinished, hstale, Context.rest]

/-- A coroutine yields only from its own stack. -/
theorem step_yield_fault {value : ℤ} {next : Prog} (hprog : s.prog = .yield c value next)
    (hcurrent : s.current ≠ some c) : step s = .fault := by
  rw [step, hprog]
  dsimp only
  split
  next c' coro hrunning =>
    obtain ⟨_, hs, hcoro⟩ := Option.bind_eq_some_iff.mp hrunning
    obtain ⟨_, -, heq⟩ := Option.map_eq_some_iff.mp hcoro
    cases heq
    refine if_neg fun hc => hcurrent ?_
    rw [← hc, hs]
  next => rfl

/-- A coroutine that has been entered runs up to its next stop, and its caller goes on. -/
theorem Simulates.resume {next : ℤ → Prog} {gens₁ : List Gen}
    (hresume : step s = .running (s.enter c coro next rest)) (hgen : gens[c]? = some (.ready rest))
    (hfinished : coro.isCoroFinished = false) (hstands : Stands gens s.coros)
    (hbody : Simulates fuel (s.enter c coro next rest) (gens.set c .active)
      (.stopped gens₁ stop output))
    (hafter : ∀ s₃, Stands (gens₁.set c stop.gen) s₃.coros → s₃.current = s.current →
      s₃.prog = next stop.value → Simulates fuel s₃ (gens₁.set c stop.gen) result) :
    Simulates (fuel + 1) s gens (result.after output) := by
  have hlt := (List.getElem?_eq_some_iff.mp hgen).1
  obtain ⟨n, s₂, hleads, hstands₂, hcurrent₂, hprog₂, houtput₂, hkeeps₂⟩ := hbody
  -- The context of the caller is still where it was saved.
  have hsaved := (hkeeps₂ c (List.getElem?_set_self hlt)).2
  rw [State.enter, List.getElem?_set_self (hstands.length_eq ▸ hlt)] at hsaved
  obtain ⟨coro', hrep', hstop⟩ := step_stop hcurrent₂ hprog₂ hsaved rfl hfinished
  refine (hafter { s₂ with
    coros := s₂.coros.set c (some coro')
    current := s.current
    prog := next stop.value } (hstands₂.set hrep' c) rfl rfl).after
      (((Leads.of_step hresume).trans hleads).trans (.of_step hstop)) rfl houtput₂ ?_
  intro c' hc'
  have hne : c ≠ c' := by
    rintro rfl
    rw [hgen] at hc'
    cases hc'
  obtain ⟨hgen₁, hcoro₂⟩ := hkeeps₂ c' (by rw [List.getElem?_set_ne hne]; exact hc')
  rw [State.enter, List.getElem?_set_ne hne] at hcoro₂
  exact ⟨by rw [List.getElem?_set_ne hne]; exact hgen₁, (List.getElem?_set_ne hne).trans hcoro₂⟩

/-- The code does what the generators do. -/
theorem simulates (fuel : ℕ) (hstands : Stands gens s.coros) :
    Simulates fuel s gens (evaluate fuel gens s.current s.prog) := by
  induction fuel generalizing gens s with
  | zero => exact ⟨s, rfl⟩
  | succ fuel ih =>
    cases hprog : s.prog with
    | ret value =>
      exact ⟨0, s, .refl s, hstands, rfl, hprog, (List.append_nil _).symm, .refl gens s⟩
    | puts line next =>
      have hstep : step s = .running { s with prog := next, output := s.output ++ [line] } := by
        rw [step, hprog]
      exact (ih (s := { s with prog := next, output := s.output ++ [line] }) hstands).after
        (.of_step hstep) rfl rfl (.refl gens s)
    | stack bytes next =>
      rw [evaluate]
      split_ifs with hoverflow
      · exact ⟨0, s, .refl s, by rw [step, hprog]; exact if_pos hoverflow⟩
      · exact (ih (s := { s with prog := next }) hstands).next
          (by rw [step, hprog]; exact if_neg hoverflow) rfl rfl (.refl gens s)
    | yield c value next =>
      rw [evaluate]
      split_ifs with hcurrent
      · refine ⟨0, s, .refl s, hstands, rfl, ?_, (List.append_nil _).symm, .refl gens s⟩
        rw [hprog, hcurrent]
        rfl
      · exact ⟨0, s, .refl s, step_yield_fault hprog hcurrent⟩
    | new function next =>
      have hstep : step s = .running { s with
          coros := s.coros ++ [some (coroNew (function s.coros.length))]
          prog := next s.coros.length } := by
        rw [step, hprog]
      have hrep : Represents (.ready (function s.coros.length))
          (some (coroNew (function s.coros.length))) := ⟨rfl, rfl, rfl⟩
      have hrest := ih (s := { s with
        coros := s.coros ++ [some (coroNew (function s.coros.length))]
        prog := next s.coros.length }) (hstands.concat hrep)
      rw [evaluate, hstands.length_eq]
      refine hrest.next hstep rfl rfl fun c hc => ?_
      have hlt := (List.getElem?_eq_some_iff.mp hc).1
      rw [List.getElem?_append_left hlt, List.getElem?_append_left (hstands.length_eq ▸ hlt)]
      exact ⟨hc, rfl⟩
    | free c next =>
      have hfree : ∀ gen coro, gens[c]? = some gen → gen ≠ .active →
          s.coros[c]? = some (some coro) → coro.resumeContext.isStale = false →
          Simulates (fuel + 1) s gens (evaluate fuel (gens.set c .freed) s.current next) := by
        intro gen coro hgen hne hcoro hcontext
        exact (ih (s := { s with coros := s.coros.set c none, prog := next })
          (hstands.set represents_freed c)).next (step_free hprog hcoro hcontext) rfl rfl
          (.set hgen hne rfl)
      rw [evaluate]
      split
      next rest hgen =>
        obtain ⟨coro, hcoro, hrep⟩ := hstands.exists_some hgen (by simp)
        exact hfree _ coro hgen (by simp) hcoro hrep.2.1
      next hgen =>
        obtain ⟨coro, hcoro, hrep⟩ := hstands.exists_some hgen (by simp)
        exact hfree _ coro hgen (by simp) hcoro (by rw [hrep.2]; rfl)
      next hready hfinished =>
        exact ⟨0, s, .refl s, step_free_fault hprog hstands ⟨hready, hfinished⟩⟩
    | resume c next =>
      rw [evaluate]
      split
      next hgen =>
        obtain ⟨coro, hcoro, hrep⟩ := hstands.exists_some hgen (by simp)
        exact (ih (s := { s with prog := next (-1) }) hstands).next
          (step_resume_finished hprog hcoro hrep.1) rfl rfl (.refl gens s)
      next rest hgen =>
        obtain ⟨coro, hcoro, hrep⟩ := hstands.exists_some hgen (by simp)
        have hresume := step_resume hprog hcoro hrep.1 hrep.2.2
        have hbody : Simulates fuel (s.enter c coro next rest) (gens.set c .active)
            (evaluate fuel (gens.set c .active) (some c) rest) :=
          ih (hstands.set (represents_active hrep s.current next) c)
        cases hstopped : evaluate fuel (gens.set c .active) (some c) rest with
        | stopped gens₁ stop output =>
          rw [hstopped] at hbody
          refine Simulates.resume hresume hgen hrep.1 hstands hbody ?_
          intro s₃ hstands₃ hcurrent₃ hprog₃
          rw [← hcurrent₃, ← hprog₃]
          exact ih hstands₃
        | fault =>
          rw [hstopped] at hbody
          obtain ⟨n, t, hleads, hstep⟩ := hbody
          exact ⟨_, t, (Leads.of_step hresume).trans hleads, hstep⟩
        | outOfFuel =>
          rw [hstopped] at hbody
          exact ((Leads.of_step hresume).lasts hbody).of_le (by omega)
      next hfinished hready =>
        exact ⟨0, s, .refl s, step_resume_fault hprog hstands ⟨hready, hfinished⟩⟩

/-! ### Whole programs -/

theorem Result.after_eq_stopped_iff {output' : List String} :
    result.after output = .stopped gens stop output' ↔
      ∃ rest, result = .stopped gens stop rest ∧ output' = output ++ rest := by
  cases result with
  | stopped gens' stop' rest =>
    simp only [Result.after, Result.stopped.injEq]
    constructor
    · rintro ⟨rfl, rfl, rfl⟩
      exact ⟨rest, ⟨rfl, rfl, rfl⟩, rfl⟩
    · rintro ⟨rest', ⟨rfl, rfl, rfl⟩, rfl⟩
      exact ⟨rfl, rfl, rfl⟩
  | fault => simp [Result.after]
  | outOfFuel => simp [Result.after]

/-- The main program does not stop at a yield. -/
theorem evaluate_main_ne_yielded {prog : Prog} {value : ℤ} :
    evaluate fuel gens none prog ≠ .stopped gens' (.yielded value rest) output := by
  induction fuel generalizing gens prog output with
  | zero => simp [evaluate]
  | succ fuel ih =>
    intro h
    cases prog with
    | ret value => simp [evaluate] at h
    | puts line next =>
      obtain ⟨output', h, -⟩ := Result.after_eq_stopped_iff.mp h
      exact ih h
    | stack bytes next => exact ih h
    | yield c value next => simp [evaluate] at h
    | new function next => exact ih h
    | free c next =>
      rw [evaluate] at h
      split at h
      · exact ih h
      · exact ih h
      · cases h
    | resume c next =>
      rw [evaluate] at h
      split at h
      · exact ih h
      · split at h
        next gens₁ stop output₁ hbody =>
          obtain ⟨output', h, -⟩ := Result.after_eq_stopped_iff.mp h
          exact ih h
        next hbody => exact hbody _ _ _ h
      · cases h

/-- What the code does with a main program, by what its generators do. -/
theorem evaluate_main_cases (main : Prog) (fuel : ℕ) :
    (∃ gens value output, evaluate fuel [] none main = .stopped gens (.returned value) output ∧
      ∃ n, steps n (start main) = .exited value output) ∨
    (evaluate fuel [] none main = .fault ∧ ∃ n, steps n (start main) = .fault) ∨
    (evaluate fuel [] none main = .outOfFuel ∧ Lasts fuel (start main)) := by
  have hsim : Simulates fuel (start main) [] (evaluate fuel [] none main) :=
    simulates (s := start main) fuel .nil
  cases heval : evaluate fuel [] none main with
  | stopped gens stop output =>
    rw [heval] at hsim
    obtain ⟨n, t, hleads, -, hcurrent, hprog, houtput, -⟩ := hsim
    cases stop with
    | yielded value rest => exact absurd heval evaluate_main_ne_yielded
    | returned value =>
      refine .inl ⟨gens, value, output, rfl, n + 1, hleads.ends ?_ (final_exited value output)⟩
      rw [step, hprog]
      dsimp only [Stop.prog]
      rw [hcurrent, houtput]
      rfl
  | fault =>
    rw [heval] at hsim
    obtain ⟨n, t, hleads, hfault⟩ := hsim
    exact .inr (.inl ⟨rfl, n + 1, hleads.ends hfault final_fault⟩)
  | outOfFuel =>
    rw [heval] at hsim
    exact .inr (.inr ⟨rfl, hsim⟩)

/-- The context switches have the meaning of generators: for every main program, and whatever the
functions of its coroutines do, it exits with a value and an output exactly if its generators do,
and goes wrong exactly if they do. Both go wrong where a function needs more than its stack, or
yields for another coroutine than its own. -/
theorem coroutines_are_generators (main : Prog) :
    (∀ value output, (∃ n, steps n (start main) = .exited value output) ↔
      ∃ fuel gens, evaluate fuel [] none main = .stopped gens (.returned value) output) ∧
    ((∃ n, steps n (start main) = .fault) ↔ ∃ fuel, evaluate fuel [] none main = .fault) := by
  refine ⟨fun value output => ⟨?_, ?_⟩, ?_, ?_⟩
  · rintro ⟨n, hn⟩
    rcases evaluate_main_cases main n with ⟨gens, v, out, heval, n', hn'⟩ | ⟨-, n', hn'⟩ |
      ⟨-, t, ht⟩
    · cases steps_unique hn (final_exited _ _) hn' (final_exited _ _)
      exact ⟨n, gens, heval⟩
    · cases steps_unique hn (final_exited _ _) hn' final_fault
    · cases hn.symm.trans ht
  · rintro ⟨fuel, gens, h⟩
    rcases evaluate_main_cases main fuel with ⟨gens', v, out, heval, hn⟩ | ⟨heval, -⟩ | ⟨heval, -⟩
    · cases h.symm.trans heval
      exact hn
    · cases h.symm.trans heval
    · cases h.symm.trans heval
  · rintro ⟨n, hn⟩
    rcases evaluate_main_cases main n with ⟨gens, v, out, -, n', hn'⟩ | ⟨heval, -⟩ | ⟨-, t, ht⟩
    · cases steps_unique hn final_fault hn' (final_exited _ _)
    · exact ⟨n, heval⟩
    · cases hn.symm.trans ht
  · rintro ⟨fuel, h⟩
    rcases evaluate_main_cases main fuel with ⟨gens', v, out, heval, -⟩ | ⟨-, hn⟩ | ⟨heval, -⟩
    · cases h.symm.trans heval
    · exact hn
    · cases h.symm.trans heval

/-- `hello_world` of `main.c`, where each call of `puts` needs so much stack. -/
def helloWorld (bytes coro : ℕ) : Prog :=
  .stack bytes (.puts "Hello" (.yield coro 1 (.stack bytes (.puts "World" (.ret 2)))))

-- The main program of `main.c`: the coroutine gives 1, then 2, and -1 from then on, if `puts` finds
-- enough stack; with one byte more it goes wrong.
example (check : ℤ → ℤ → ℤ → ℤ) :
    let main bytes := .new (helloWorld bytes) fun coro => .resume coro fun a =>
      .resume coro fun b => .resume coro fun c => .free coro (.ret (check a b c))
    (∃ n, steps n (start (main 2048)) = .exited (check 1 2 (-1)) ["Hello", "World"]) ∧
      ∃ n, steps n (start (main 2049)) = .fault :=
  ⟨⟨14, rfl⟩, ⟨3, rfl⟩⟩

end Hack.Coroutine
