import Hack.Custody
import Hack.Machine
import Hack.WorkItem

/-!
# Connect requests of the wlan driver

This file embeds `wi_connect` and `wlanidt_connect_routine` of `kwlan-if/core.c`. A call copies
its SSID into the context under the semaphore and schedules the work afterwards. Unlike
`wi_scan`, it does not look whether an earlier SSID is still there. The worker compares what it
finds with the one SSID it knows and reports success or a timeout. A call that comes while an
earlier one is not answered yet overwrites the SSID that the answer depends on.
-/

namespace Hack.Wlan

/-- `SSID_DUMMY`. -/
def ssidDummy : List UInt8 := "APIDIOT".toList.map Char.toUInt8

/-- The context as far as connecting uses it, and the calls in progress. -/
structure Connect where
  /-- `connecting_ssid`, of 8 bytes. -/
  connectingSsid : List UInt8
  /-- `ws_connect`. -/
  work : WorkItem
  /-- The SSIDs of calls that have stored them and are to schedule the work. -/
  scheduling : List (List UInt8)
  /-- The SSIDs of calls that have returned 0. -/
  accepted : List (List UInt8)
  /-- The number of calls that have returned `-EBUSY`. -/
  busy : ℕ
  /-- What the worker has reported: `true` for `cfg80211_connect_bss`, `false` for
  `cfg80211_connect_timeout`. -/
  reports : List Bool

/-- What happens next. -/
inductive ConnectEvent
  /-- `wi_connect` is called and runs its section. -/
  | connect (ssid : List UInt8)
  /-- A call schedules the work and returns. -/
  | schedule (i : ℕ)
  /-- The worker begins with `wlanidt_connect_routine`. -/
  | start
  /-- The section of `wlanidt_connect_routine`. -/
  | complete
  /-- `wlanidt_connect_routine` returns. -/
  | finish

/-- The section of `wi_connect`. An SSID that does not fit with its zero is written behind the
end of `connecting_ssid`, which is a fault. -/
def Connect.store (s : Connect) (ssid : List UInt8) : Option Connect :=
  let ssidLen := min ssid.length 15
  if ssidLen < s.connectingSsid.length then
    some { s with
      connectingSsid := ssid.take ssidLen ++ 0 :: s.connectingSsid.drop (ssidLen + 1)
      scheduling := s.scheduling ++ [ssid] }
  else none

/-- The rest of `wi_connect`. -/
def Connect.schedule (s : Connect) (ssid : List UInt8) : Connect :=
  match s.work.schedule with
  | none => { s with busy := s.busy + 1 }
  | some work => { s with work, accepted := s.accepted ++ [ssid] }

/-- The comparison of `wlanidt_connect_routine`, which includes the zero. -/
def Connect.matchesDummy (s : Connect) : Bool := s.connectingSsid.take 8 = ssidDummy ++ [0]

/-- The state after an event. -/
def Connect.next (s : Connect) : ConnectEvent → Option Connect
  | .connect ssid => s.store ssid
  | .schedule i => (s.scheduling[i]?).map fun ssid =>
    Connect.schedule { s with scheduling := s.scheduling.eraseIdx i } ssid
  | .start => s.work.start.map fun work => { s with work }
  | .complete => s.work.act.map fun work =>
    { s with
      work
      connectingSsid := s.connectingSsid.set 0 0
      reports := s.reports ++ [s.matchesDummy] }
  | .finish => s.work.finish.map fun work => { s with work }

/-- The driver as a machine. Only the first byte of `connecting_ssid` is initialised. -/
def connectDriver : Machine Connect ConnectEvent where
  start s := s.connectingSsid.length = 8 ∧ s.connectingSsid[0]? = some 0 ∧ s.work = .fresh ∧
    s.scheduling = [] ∧ s.accepted = [] ∧ s.busy = 0 ∧ s.reports = []
  next := Connect.next

/-- The SSIDs of calls that were not answered yet. -/
def Connect.unanswered (s : Connect) : List (List UInt8) :=
  s.scheduling ++ s.accepted.drop s.reports.length

/-- The condition on a step: a call stores its SSID while others are not answered yet only if
neither it nor one of them has the SSID that the driver knows. -/
def Undisturbed (s : Connect) : ConnectEvent → Prop
  | .connect ssid => s.unanswered = [] ∨ ∀ other ∈ ssid :: s.unanswered, other ≠ ssidDummy
  | _ => True

instance (s : Connect) : DecidablePred (Undisturbed s)
  | .connect _ => inferInstanceAs (Decidable (_ ∨ _))
  | .schedule _ => inferInstanceAs (Decidable True)
  | .start => inferInstanceAs (Decidable True)
  | .complete => inferInstanceAs (Decidable True)
  | .finish => inferInstanceAs (Decidable True)

/-- Each call that has returned 0 has its own answer: the reports answer the calls in their
order, and one action of the worker is due for each call that is not answered yet. -/
structure Connect.Answered (s : Connect) : Prop where
  reports : s.reports = (s.accepted.take s.reports.length).map fun ssid => decide (ssid = ssidDummy)
  due : s.reports.length + s.work.due = s.accepted.length

/-- What the SSID in the context is good for: none of the unanswered calls is to succeed, or
there is one of them, and its SSID is in the context. -/
inductive Connect.Prepared (s : Connect) : Prop
  | failing : s.matchesDummy = false → (∀ ssid ∈ s.unanswered, ssid ≠ ssidDummy) → Prepared s
  | succeeding : s.matchesDummy = true → s.unanswered = [ssidDummy] → Prepared s

variable {s s' : Connect} {event : ConnectEvent} {ssid : List UInt8}

/-- A cleared SSID is not the known one. -/
theorem Connect.matchesDummy_of_cleared (hcleared : s.connectingSsid[0]? = some 0) :
    s.matchesDummy = false := by
  refine decide_eq_false fun heq => ?_
  have hfirst : (s.connectingSsid.take 8)[0]? = some 0 := by
    rwa [List.getElem?_take_of_lt (by decide)]
  rw [heq] at hfirst
  exact absurd hfirst (by decide)

/-- An SSID and a zero at the front of 8 bytes are the known one exactly if the SSID is. -/
theorem append_zero_eq_dummy_iff {rest : List UInt8} (hlength : (ssid ++ 0 :: rest).length = 8) :
    ssid ++ 0 :: rest = ssidDummy ++ [0] ↔ ssid = ssidDummy := by
  rw [List.length_append, List.length_cons] at hlength
  constructor
  · intro heq
    -- The zero behind the SSID is the last byte.
    have hzero : (ssidDummy ++ [0])[ssid.length]? = some 0 := by
      rw [← heq, List.getElem?_append_right (Nat.le_refl _), Nat.sub_self]
      rfl
    have hlast : ∀ i < 8, (ssidDummy ++ [0])[i]? = some 0 → i = ssidDummy.length := by decide
    exact (List.append_inj heq (hlast _ (by omega) hzero)).1
  · rintro rfl
    have hdummy : ssidDummy.length = 7 := by decide
    have hrest : rest = [] := List.eq_nil_of_length_eq_zero (by omega)
    rw [hrest]

/-- The SSID in the context is the known one exactly if that was stored last. -/
theorem Connect.matchesDummy_of_store (hlength : s.connectingSsid.length = 8)
    (hstore : s.store ssid = some s') :
    s'.connectingSsid.length = 8 ∧ s'.matchesDummy = decide (ssid = ssidDummy) := by
  simp only [Connect.store] at hstore
  split_ifs at hstore with hfits
  have hmin : min ssid.length 15 = ssid.length := by omega
  rw [hmin] at hstore hfits
  obtain rfl := Option.some_inj.mp hstore
  have hlength' : (ssid.take ssid.length ++
      0 :: s.connectingSsid.drop (ssid.length + 1)).length = 8 := by
    simp only [List.length_append, List.length_take, List.length_cons, List.length_drop]
    omega
  refine ⟨hlength', decide_eq_decide.mpr ?_⟩
  rw [List.take_of_length_le (Nat.le_of_eq hlength'), append_zero_eq_dummy_iff hlength',
    List.take_length]

/-- The invariant of the driver. -/
structure Connect.Inv (s : Connect) : Prop where
  length : s.connectingSsid.length = 8
  answered : s.Answered
  prepared : s.Prepared

/-- A change of the work item with as many actions due does not matter. -/
theorem Connect.Inv.of_due (h : s.Inv) {work : WorkItem} (hdue : work.due = s.work.due) :
    Connect.Inv { s with work } := by
  refine ⟨h.length, ⟨h.answered.reports, ?_⟩, ?_⟩
  · rw [hdue]
    exact h.answered.due
  · cases h.prepared with
    | failing hmatch hothers => exact .failing hmatch hothers
    | succeeding hmatch hone => exact .succeeding hmatch hone

/-- A call stores its SSID. -/
theorem Connect.Inv.store (h : s.Inv) (hcond : Undisturbed s (.connect ssid))
    (hstore : s.store ssid = some s') : s'.Inv := by
  obtain ⟨hlength, hmatch⟩ := Connect.matchesDummy_of_store h.length hstore
  simp only [Connect.store] at hstore
  split_ifs at hstore
  obtain rfl := Option.some_inj.mp hstore
  refine ⟨hlength, ⟨h.answered.reports, h.answered.due⟩, ?_⟩
  rcases hcond with hnone | hothers
  · obtain ⟨hscheduling, hdrop⟩ := List.append_eq_nil_iff.mp hnone
    have hone : s.scheduling ++ [ssid] ++ s.accepted.drop s.reports.length = [ssid] := by
      rw [hscheduling, hdrop]
      rfl
    by_cases hdummy : ssid = ssidDummy
    · exact .succeeding (hmatch.trans (decide_eq_true hdummy)) (hdummy ▸ hone)
    · refine .failing (hmatch.trans (decide_eq_false hdummy)) fun other hother => ?_
      rw [Connect.unanswered, hone, List.mem_singleton] at hother
      exact hother ▸ hdummy
  · obtain ⟨hdummy, hothers⟩ := List.forall_mem_cons.mp hothers
    refine .failing (hmatch.trans (decide_eq_false hdummy)) fun other hother => ?_
    simp only [Connect.unanswered, List.mem_append, List.mem_singleton] at hother hothers
    rcases hother with (hother | rfl) | hother
    · exact hothers other (.inl hother)
    · exact hdummy
    · exact hothers other (.inr hother)

/-- A call schedules the work. -/
theorem Connect.Inv.schedule (h : s.Inv) {i : ℕ} (hget : s.scheduling[i]? = some ssid) :
    (Connect.schedule { s with scheduling := s.scheduling.eraseIdx i } ssid).Inv := by
  have hdue := h.answered.due
  have hperm := Custody.perm_cons_eraseIdx hget
  unfold Connect.schedule
  dsimp only
  cases hwork : s.work.schedule with
  | none =>
    -- The work is pending, so the call is not the only one without an answer.
    refine ⟨h.length, ⟨h.answered.reports, hdue⟩, ?_⟩
    cases h.prepared with
    | failing hmatch hothers =>
      refine .failing hmatch fun other hother => hothers other ?_
      simp only [Connect.unanswered, List.mem_append] at hother ⊢
      exact hother.imp_left fun hmem => List.mem_of_mem_eraseIdx hmem
    | succeeding hmatch hone =>
      have hlength := congrArg List.length hone
      have hscheduling := hperm.length_eq
      simp only [Connect.unanswered, List.length_append, List.length_drop, List.length_cons,
        List.length_nil] at hlength hscheduling
      obtain ⟨work, hsome⟩ := WorkItem.exists_schedule (w := s.work) (by omega)
      rw [hwork] at hsome
      cases hsome
  | some work =>
    have hdue' := WorkItem.due_of_schedule hwork
    have hle : s.reports.length ≤ s.accepted.length := by omega
    -- The call moves from those that schedule the work to those that have returned 0.
    have hunanswered : (s.scheduling.eraseIdx i ++
        (s.accepted ++ [ssid]).drop s.reports.length).Perm s.unanswered := by
      rw [List.drop_append_of_le_length hle, ← List.append_assoc]
      refine (List.perm_append_singleton _ _).trans ?_
      exact hperm.symm.append_right _
    refine ⟨h.length, ⟨?_, ?_⟩, ?_⟩
    · dsimp only
      rw [List.take_append_of_le_length hle]
      exact h.answered.reports
    · simp only [List.length_append, List.length_singleton]
      omega
    · cases h.prepared with
      | failing hmatch hothers =>
        exact .failing hmatch fun other hother => hothers other (hunanswered.subset hother)
      | succeeding hmatch hone =>
        rw [hone] at hunanswered
        exact .succeeding hmatch (List.perm_singleton.mp hunanswered)

/-- The worker answers the call that has waited longest. -/
theorem Connect.Inv.complete (h : s.Inv) {work : WorkItem} (hact : s.work.act = some work) :
    Connect.Inv { s with
      work
      connectingSsid := s.connectingSsid.set 0 0
      reports := s.reports ++ [s.matchesDummy] } := by
  have hdue := WorkItem.due_of_act hact
  have hanswered := h.answered.due
  obtain ⟨ssid, rest, hdrop⟩ : ∃ ssid rest, s.accepted.drop s.reports.length = ssid :: rest :=
    List.exists_cons_of_length_pos (by rw [List.length_drop]; omega)
  have hsucc : s.accepted.drop (s.reports.length + 1) = rest := by
    rw [← List.drop_drop, hdrop]
    rfl
  have htake : s.accepted.take (s.reports.length + 1) =
      s.accepted.take s.reports.length ++ [ssid] := by
    rw [List.take_add, hdrop]
    rfl
  have hmatch : s.matchesDummy = decide (ssid = ssidDummy) ∧
      ∀ other ∈ s.scheduling ++ rest, other ≠ ssidDummy := by
    cases h.prepared with
    | failing hmatch hothers =>
      simp only [Connect.unanswered, hdrop, List.mem_append, List.mem_cons] at hothers ⊢
      refine ⟨hmatch.trans (decide_eq_false (hothers ssid (.inr (.inl rfl)))).symm, ?_⟩
      exact fun other hother => hothers other (hother.imp_right .inr)
    | succeeding hmatch hone =>
      rw [Connect.unanswered, hdrop, List.append_eq_singleton_iff] at hone
      rcases hone with ⟨hscheduling, hone⟩ | ⟨-, hnil⟩
      · obtain ⟨rfl, rfl⟩ := List.cons.inj hone
        refine ⟨hmatch.trans (decide_eq_true rfl).symm, ?_⟩
        rw [hscheduling]
        exact fun other hother => absurd hother List.not_mem_nil
      · cases hnil
  refine ⟨?_, ⟨?_, ?_⟩, .failing (Connect.matchesDummy_of_cleared ?_) ?_⟩
  · rw [List.length_set]
    exact h.length
  · rw [List.length_append, List.length_singleton, htake, List.map_append, ← h.answered.reports,
      hmatch.1]
    rfl
  · simp only [List.length_append, List.length_singleton]
    omega
  · exact List.getElem?_set_self (by rw [h.length]; decide)
  · simp only [Connect.unanswered, List.length_append, List.length_singleton, hsucc]
    exact hmatch.2

/-- Every event that meets the condition keeps the invariant. -/
theorem Connect.Inv.next (h : s.Inv) (hcond : Undisturbed s event)
    (hnext : s.next event = some s') : s'.Inv := by
  cases event with
  | connect ssid => exact h.store hcond hnext
  | schedule i =>
    obtain ⟨ssid, hget, rfl⟩ := Option.map_eq_some_iff.mp hnext
    exact h.schedule hget
  | start =>
    obtain ⟨work, hwork, rfl⟩ := Option.map_eq_some_iff.mp hnext
    exact h.of_due (WorkItem.due_of_start hwork)
  | complete =>
    obtain ⟨work, hwork, rfl⟩ := Option.map_eq_some_iff.mp hnext
    exact h.complete hwork
  | finish =>
    obtain ⟨work, hwork, rfl⟩ := Option.map_eq_some_iff.mp hnext
    exact h.of_due (WorkItem.due_of_finish hwork)

/-- **Each connect request gets its own answer.** As long as no call stores its SSID while
another one is not answered yet, except among calls that are to fail, the worker reports on the
calls that have returned 0 in their order, success exactly for the SSID that the driver knows,
and one more report is due for each of these calls without one. Calls that have returned
`-EBUSY` do not matter. -/
theorem connect_requests_answered (hreach : connectDriver.ReachableUnder Undisturbed s) :
    s.reports = (s.accepted.take s.reports.length).map (fun ssid => decide (ssid = ssidDummy)) ∧
      s.reports.length + s.work.due = s.accepted.length := by
  have hinv : s.Inv := by
    refine hreach.invariant Connect.Inv ?_ fun s event s' h hcond hnext => h.next hcond hnext
    rintro s ⟨hlength, hcleared, hwork, hscheduling, haccepted, -, hreports⟩
    refine ⟨hlength, ⟨?_, ?_⟩, .failing (Connect.matchesDummy_of_cleared hcleared) ?_⟩
    · rw [hreports]
      rfl
    · rw [hreports, haccepted, hwork]
      rfl
    · simp [Connect.unanswered, hscheduling, haccepted]
  exact ⟨hinv.answered.reports, hinv.answered.due⟩

/-- The context with a cleared SSID. -/
def Connect.cleared : Connect := ⟨List.replicate 8 0, .fresh, [], [], 0, []⟩

/-- A first call that is to succeed, and after its answer two that are to fail. -/
def ConnectEvent.inTurn : List ConnectEvent :=
  [.connect ssidDummy, .schedule 0, .start, .complete, .connect [65], .schedule 0, .finish,
    .connect [66], .schedule 0, .start, .complete]

/-- The first and the second call are answered, and the third one has returned `-EBUSY`. -/
theorem connect_requests_answered_inTurn :
    ∃ s, connectDriver.ReachableUnder Undisturbed s ∧ s.busy = 1 ∧
      s.accepted = [ssidDummy, [65]] ∧ s.reports = [true, false] ∧
      s.reports = (s.accepted.take s.reports.length).map (fun ssid => decide (ssid = ssidDummy)) ∧
      s.reports.length + s.work.due = s.accepted.length := by
  have hstart : connectDriver.start .cleared := ⟨rfl, rfl, rfl, rfl, rfl, rfl, rfl⟩
  refine Machine.exists_reachableUnder hstart (fun s event => decide (Undisturbed s event))
    (fun _ _ => of_decide_eq_true) ConnectEvent.inTurn
    (fun s => s.busy = 1 ∧ s.accepted = [ssidDummy, [65]] ∧ s.reports = [true, false])
    ⟨_, rfl, rfl, rfl, rfl⟩ fun s hreach ⟨hbusy, haccepted, hreports⟩ => ?_
  exact ⟨hbusy, haccepted, hreports, connect_requests_answered hreach⟩

/-- A call with the known SSID returns 0, a second call with another SSID returns `-EBUSY`, and
the worker reports a timeout. -/
theorem busy_call_changes_report :
    ∃ s, connectDriver.Reachable s ∧ s.accepted = [ssidDummy] ∧ s.busy = 1 ∧
      s.work.due = 0 ∧ s.reports = [false] := by
  have hstart : connectDriver.start .cleared := ⟨rfl, rfl, rfl, rfl, rfl, rfl, rfl⟩
  exact Machine.exists_reachable hstart
    [.connect ssidDummy, .schedule 0, .connect [65], .schedule 0, .start, .complete]
    _ ⟨_, rfl, rfl, rfl, rfl, rfl⟩ fun _ _ => id

end Hack.Wlan
