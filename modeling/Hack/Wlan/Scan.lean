import Hack.Machine
import Hack.WorkItem

/-!
# Scan requests of the wlan driver

This file embeds `wi_scan` and `wlanidt_scan_routine` of `kwlan-if/core.c`. A call stores its
request in the context under the semaphore and schedules the work after it has released the
semaphore. The worker completes the stored request and clears it, under the semaphore again.
Each section under the semaphore is one step, and so is a call of `schedule_work` with the
return that follows it. Any number of calls may be in progress.
-/

namespace Hack.Wlan

variable {Req : Type}

/-- How a call of `wi_scan` returns. -/
inductive ScanReturn
  | ok
  /-- `-EBUSY`, since a request is stored. -/
  | busy
  /-- `-EBUSY`, since `schedule_work` has failed. -/
  | notScheduled
deriving DecidableEq

/-- The context as far as scanning uses it, and the calls in progress. -/
structure Scan (Req : Type) where
  /-- `scan_request`, `none` if it is `NULL`. -/
  scanRequest : Option Req
  /-- `ws_scan`. -/
  work : WorkItem
  /-- The requests of calls that have stored them and are to schedule the work. -/
  scheduling : List Req
  /-- The requests of calls that have returned 0. -/
  accepted : List Req
  /-- The requests passed to `cfg80211_scan_done`. -/
  completed : List (Option Req)
  /-- What the calls have returned. -/
  returns : List ScanReturn

/-- What happens next. -/
inductive ScanEvent (Req : Type)
  /-- `wi_scan` is called and runs its section. -/
  | scan (request : Req)
  /-- A call schedules the work and returns. -/
  | schedule (i : ℕ)
  /-- The worker begins with `wlanidt_scan_routine`. -/
  | start
  /-- The section of `wlanidt_scan_routine`. -/
  | complete
  /-- `wlanidt_scan_routine` returns. -/
  | finish

/-- The context after `wlanidt_create_context` and the initialisation of its fields. -/
def Scan.initial : Scan Req := ⟨none, .fresh, [], [], [], []⟩

/-- The section of `wi_scan`. -/
def Scan.store (s : Scan Req) (request : Req) : Scan Req :=
  match s.scanRequest with
  | some _ => { s with returns := s.returns ++ [.busy] }
  | none => { s with scanRequest := some request, scheduling := s.scheduling ++ [request] }

/-- The rest of `wi_scan` for a request that was stored. -/
def Scan.schedule (s : Scan Req) (request : Req) : Scan Req :=
  match s.work.schedule with
  | none => { s with returns := s.returns ++ [.notScheduled] }
  | some work =>
    { s with work, accepted := s.accepted ++ [request], returns := s.returns ++ [.ok] }

/-- The state after an event. -/
def Scan.next (s : Scan Req) : ScanEvent Req → Option (Scan Req)
  | .scan request => some (s.store request)
  | .schedule i => (s.scheduling[i]?).map fun request =>
    Scan.schedule { s with scheduling := s.scheduling.eraseIdx i } request
  | .start => s.work.start.map fun work => { s with work }
  | .complete => s.work.act.map fun work =>
    { s with work, scanRequest := none, completed := s.completed ++ [s.scanRequest] }
  | .finish => s.work.finish.map fun work => { s with work }

/-- The driver as a machine. -/
def scanDriver (Req : Type) : Machine (Scan Req) (ScanEvent Req) where
  start s := s = .initial
  next := Scan.next

/-- Where the stored request is: nowhere, with the call that has stored it, or with the
worker, from which one action is due. -/
inductive Scan.Placed (s : Scan Req) : Prop
  | free : s.scanRequest = none → s.scheduling = [] → s.work.due = 0 →
      s.accepted.map some = s.completed → Placed s
  | stored {request : Req} : s.scanRequest = some request → s.scheduling = [request] →
      s.work.due = 0 → s.accepted.map some = s.completed → Placed s
  | queued {request : Req} : s.scanRequest = some request → s.scheduling = [] →
      s.work.due = 1 → s.accepted.map some = s.completed ++ [some request] → Placed s

variable {s s' : Scan Req} {event : ScanEvent Req}

/-- A change of the work item with as many actions due does not matter. -/
theorem Scan.Placed.of_due (h : s.Placed) {work : WorkItem} (hdue : work.due = s.work.due) :
    Scan.Placed { s with work } := by
  cases h with
  | free hreq hscheduling hzero hlog => exact .free hreq hscheduling (hdue.trans hzero) hlog
  | stored hreq hscheduling hzero hlog => exact .stored hreq hscheduling (hdue.trans hzero) hlog
  | queued hreq hscheduling hone hlog => exact .queued hreq hscheduling (hdue.trans hone) hlog

/-- Storing a request. -/
theorem Scan.Placed.store (h : s.Placed) (request : Req) : (s.store request).Placed := by
  unfold Scan.store
  cases h with
  | free hreq hscheduling hdue hlog =>
    simp only [hreq, hscheduling]
    exact .stored rfl rfl hdue hlog
  | stored hreq hscheduling hdue hlog =>
    simp only [hreq]
    exact .stored rfl hscheduling hdue hlog
  | queued hreq hscheduling hdue hlog =>
    simp only [hreq]
    exact .queued rfl hscheduling hdue hlog

/-- A call that has stored its request finds the work not pending. -/
theorem Scan.Placed.schedule (h : s.Placed) {i : ℕ} {request : Req}
    (hget : s.scheduling[i]? = some request) :
    ∃ work, s.work.schedule = some work ∧ Scan.Placed { s with
      work
      scheduling := s.scheduling.eraseIdx i
      accepted := s.accepted ++ [request]
      returns := s.returns ++ [.ok] } := by
  cases h with
  | free _ hscheduling => simp [hscheduling] at hget
  | queued _ hscheduling => simp [hscheduling] at hget
  | @stored request' hreq hscheduling hdue hlog =>
    obtain ⟨work, hwork⟩ := WorkItem.exists_schedule hdue
    obtain ⟨rfl, rfl⟩ : i = 0 ∧ request' = request := by
      simpa [hscheduling, List.getElem?_singleton] using hget
    refine ⟨work, hwork, .queued hreq (by simp [hscheduling]) ?_ ?_⟩
    · rw [WorkItem.due_of_schedule hwork, hdue]
    · rw [List.map_append, hlog, List.map_singleton]

/-- The worker completes the stored request. -/
theorem Scan.Placed.complete (h : s.Placed) {work : WorkItem} (hact : s.work.act = some work) :
    Scan.Placed { s with
      work, scanRequest := none, completed := s.completed ++ [s.scanRequest] } := by
  have hdue := WorkItem.due_of_act hact
  cases h with
  | free _ _ hzero => omega
  | stored _ _ hzero => omega
  | queued hreq hscheduling hone hlog =>
    refine .free rfl hscheduling (by dsimp only; omega) ?_
    rw [hreq]
    exact hlog

/-- Every event keeps the stored request in its place, and no call fails to schedule the
work. -/
theorem Scan.Placed.next (h : s.Placed) (hreturns : .notScheduled ∉ s.returns)
    (hnext : s.next event = some s') : s'.Placed ∧ .notScheduled ∉ s'.returns := by
  cases event with
  | scan request =>
    obtain rfl := Option.some_inj.mp hnext
    refine ⟨h.store request, ?_⟩
    unfold Scan.store
    cases s.scanRequest <;> simpa using hreturns
  | schedule i =>
    obtain ⟨request, hget, rfl⟩ := Option.map_eq_some_iff.mp hnext
    obtain ⟨work, hwork, hplaced⟩ := h.schedule hget
    simp only [Scan.schedule, hwork]
    exact ⟨hplaced, by simpa using hreturns⟩
  | start =>
    obtain ⟨work, hwork, rfl⟩ := Option.map_eq_some_iff.mp hnext
    exact ⟨h.of_due (WorkItem.due_of_start hwork), hreturns⟩
  | complete =>
    obtain ⟨work, hwork, rfl⟩ := Option.map_eq_some_iff.mp hnext
    exact ⟨h.complete hwork, hreturns⟩
  | finish =>
    obtain ⟨work, hwork, rfl⟩ := Option.map_eq_some_iff.mp hnext
    exact ⟨h.of_due (WorkItem.due_of_finish hwork), hreturns⟩

/-- **Scan requests are completed at most once.** In any interleaving of calls of `wi_scan` and
runs of the worker, the requests passed to `cfg80211_scan_done` are requests of calls that
returned 0, one for each call and in the order of the calls, so none of them is `NULL`; and no
call of `wi_scan` returns `-EBUSY` after `schedule_work`. -/
theorem scan_requests_completed_once (hreach : (scanDriver Req).Reachable s) :
    none ∉ s.completed ∧ s.completed <+: s.accepted.map some ∧ .notScheduled ∉ s.returns := by
  have hinv : s.Placed ∧ .notScheduled ∉ s.returns := by
    refine hreach.invariant (fun s => s.Placed ∧ .notScheduled ∉ s.returns) ?_ ?_
    · rintro s rfl
      exact ⟨.free rfl rfl WorkItem.due_fresh rfl, List.not_mem_nil⟩
    · rintro s event s' ⟨h, hreturns⟩ - hnext
      exact h.next hreturns hnext
  obtain ⟨hplaced, hreturns⟩ := hinv
  have hlog : s.completed <+: s.accepted.map some := by
    cases hplaced with
    | free _ _ _ hlog => exact hlog ▸ List.prefix_rfl
    | stored _ _ _ hlog => exact hlog ▸ List.prefix_rfl
    | queued _ _ _ hlog => exact hlog ▸ List.prefix_append _ _
  refine ⟨fun hnone => ?_, hlog, hreturns⟩
  simpa using hlog.subset hnone

/-- Two calls, of which the second one finds the request of the first, and a third one after
the worker has completed that request. -/
def ScanEvent.threeCalls : List (ScanEvent ℕ) :=
  [.scan 1, .scan 2, .schedule 0, .start, .complete, .scan 3, .schedule 0, .finish, .start,
    .complete]

/-- The first and the third request are completed. -/
theorem scan_requests_completed_threeCalls :
    ∃ s, (scanDriver ℕ).Reachable s ∧ s.completed = [some 1, some 3] ∧
      s.returns = [.busy, .ok, .ok] ∧
      none ∉ s.completed ∧ s.completed <+: s.accepted.map some ∧ .notScheduled ∉ s.returns := by
  refine Machine.exists_reachable rfl ScanEvent.threeCalls
    (fun s => s.completed = [some 1, some 3] ∧ s.returns = [.busy, .ok, .ok]) ⟨_, rfl, rfl, rfl⟩ ?_
  exact fun s hreach ⟨hcompleted, hreturns⟩ =>
    ⟨hcompleted, hreturns, scan_requests_completed_once hreach⟩

end Hack.Wlan
