import Mathlib.Algebra.Group.Nat.Defs
import Mathlib.Tactic.SplitIfs

/-!
# Connecting with a timeout

This file embeds the two versions of `connect_with_timeout`, of `sock-thread-ctx-tcp/client_p.c`
and `sock-select-tcp/client_s.c`. A socket that does not block is connected, and while that is in
progress the function waits for it with `poll` or `select`. One variable carries the result of the
wait, the error codes and the condition of the loop. A wait that times out leaves a zero in it,
and an error of the socket that cannot be read leaves a positive number, which are both returned
as if the socket was connected. The answers of the operating system are arbitrary.
-/

namespace Hack.ConnectTimeout

/-- A reading of the clock. -/
structure Timespec where
  sec : ℤ
  nsec : ℤ

/-- What `getsockopt` does: it fails with an error number, or gives `SO_ERROR`. -/
inductive Sockopt
  | failed (errno : ℤ)
  | ok (error : ℤ)
deriving DecidableEq

/-- The answers during a turn of the loop: the time, what comes of a wait of so many milliseconds,
and the error of the socket. -/
structure Round (α : Type) where
  deadline : Timespec
  answer : ℤ → α
  sockopt : Sockopt

/-- The answers of the operating system to a call. `connect` returns zero, or fails with an error
number. -/
structure Kernel (α : Type) where
  socket : ℤ
  inetPton : ℤ
  setRcvTimeo : ℤ
  setSndTimeo : ℤ
  getFl : ℤ
  setFl : ℤ
  connect : Option ℤ
  now : Timespec
  rounds : List (Round α)
  restoreFl : ℤ

/-- A way to wait for a socket: for how long, what the call returns with which error number, and
whether it has reported the socket as writable. -/
structure Wait (α : Type) where
  time : ℤ → ℤ
  rc : α → ℤ
  errno : α → ℤ
  writable : α → Bool
  neg_one_le : ∀ a, -1 ≤ rc a
  pos_of_writable : ∀ a, writable a = true → 0 < rc a

/-- What a function returns, and what it has printed. -/
structure Outcome where
  rc : ℤ
  printed : String

variable {α : Type}

/-- The calls before `connect`, if one of them fails. -/
def Kernel.failedSetup (k : Kernel α) : Option Outcome :=
  if k.socket < 0 then some ⟨-1, "socket creation error\n"⟩
  else if k.inetPton ≤ 0 then some ⟨-2, "invalid address, address not supported\n"⟩
  else if k.setRcvTimeo < 0 then some ⟨-3, "set recv timeout\n"⟩
  else if k.setSndTimeo < 0 then some ⟨-4, "set send timeout\n"⟩
  else if k.getFl < 0 then some ⟨-5, "failed to getfl\n"⟩
  else if k.setFl < 0 then some ⟨-6, "failed to setfl\n"⟩
  else none

/-- `ms_until_deadline`, which is the time that has passed, as an `int`. -/
def msUntilDeadline (now deadline : Timespec) : ℤ :=
  Int.bmod ((deadline.sec - now.sec) * 1000 + (deadline.nsec - now.nsec).tdiv 1000000) (2 ^ 32)

/-- `rc` and `errno` at the end of a turn. -/
def Wait.outcome (w : Wait α) (answer : α) (sockopt : Sockopt) : ℤ × ℤ :=
  if 0 < w.rc answer then
    match sockopt with
    | .failed errno => (w.rc answer, errno)
    | .ok error => (if error ≠ 0 then -11 else w.rc answer, error)
  else (w.rc answer, w.errno answer)

/-- `EINTR`. -/
def eintr : ℤ := 4

/-- The loop. Without further answers it is still waiting. -/
def waitLoop (w : Wait α) (now : Timespec) (timeout : ℤ) : List (Round α) → Option ℤ
  | [] => none
  | r :: rounds =>
    let ms := msUntilDeadline now r.deadline
    if ms > timeout then some (-10)
    else
      let (rc, errno) := w.outcome (r.answer (w.time ms)) r.sockopt
      if rc = -11 ∧ errno = eintr then waitLoop w now timeout rounds else some rc

/-- `EWOULDBLOCK` and `EINPROGRESS`. -/
def inProgress (errno : ℤ) : Prop := errno = 11 ∨ errno = 115

instance : DecidablePred inProgress := fun _ => inferInstanceAs (Decidable (_ ∨ _))

/-- `connect` and what follows it, up to the flags of the socket. -/
def connected (w : Wait α) (k : Kernel α) (timeout : ℤ) : Option ℤ :=
  match k.connect with
  | none => some 0
  | some errno => if inProgress errno then waitLoop w k.now timeout k.rounds else some (-11)

/-- `connect_with_timeout` with a way to wait. -/
def connectWithTimeout (w : Wait α) (k : Kernel α) (timeout : ℤ) : Option Outcome :=
  match k.failedSetup with
  | some failure => some failure
  | none => (connected w k timeout).map fun rc => ⟨if k.restoreFl < 0 then -20 else rc, ""⟩

/-- What `poll` does with one socket. -/
inductive PollAnswer
  | failed (errno : ℤ)
  | timeout
  | ready (revents : UInt16)

/-- `poll` for `POLLOUT`, for as long as `ms_until_deadline` says. -/
def poll : Wait PollAnswer where
  time ms := ms
  rc
    | .failed _ => -1
    | .timeout => 0
    | .ready _ => 1
  errno
    | .failed errno => errno
    | _ => 0
  writable
    | .ready revents => revents &&& 4 ≠ 0
    | _ => false
  neg_one_le a := by cases a <;> simp
  pos_of_writable a h := by
    cases a with
    | ready revents => exact Int.zero_lt_one
    | _ => cases h

/-- What `select` does with one socket. -/
inductive SelectAnswer
  | failed (errno : ℤ)
  | timeout
  | ready

/-- `select` for writing, for a second. -/
def select : Wait SelectAnswer where
  time _ := 1000
  rc
    | .failed _ => -1
    | .timeout => 0
    | .ready => 1
  errno
    | .failed errno => errno
    | _ => 0
  writable
    | .ready => true
    | _ => false
  neg_one_le a := by cases a <;> simp
  pos_of_writable a h := by
    cases a with
    | ready => exact Int.zero_lt_one
    | _ => cases h

/-- `connect_with_timeout` of `client_p.c`. -/
def Poll.connectWithTimeout (k : Kernel PollAnswer) (timeout : ℤ) : Option Outcome :=
  ConnectTimeout.connectWithTimeout poll k timeout

/-- `connect_with_timeout` of `client_s.c`. -/
def Select.connectWithTimeout (k : Kernel SelectAnswer) (timeout : ℤ) : Option Outcome :=
  ConnectTimeout.connectWithTimeout select k timeout

/-! ### The waits of a call -/

/-- A wait of a call: what it has answered, and the error of the socket afterwards. -/
structure Waited (α : Type) where
  answer : α
  sockopt : Sockopt

/-- The loop goes on after an error of the socket that is an interrupt. -/
def Waited.repeats (w : Wait α) (r : Waited α) : Prop := 0 < w.rc r.answer ∧ r.sockopt = .ok eintr

instance (w : Wait α) : DecidablePred (Waited.repeats w) :=
  fun _ => inferInstanceAs (Decidable (_ ∧ _))

/-- The waits that are made with these answers. -/
def waits (w : Wait α) (now : Timespec) (timeout : ℤ) : List (Round α) → List (Waited α)
  | [] => []
  | r :: rounds =>
    if msUntilDeadline now r.deadline > timeout then []
    else
      let waited : Waited α := ⟨r.answer (w.time (msUntilDeadline now r.deadline)), r.sockopt⟩
      waited :: if waited.repeats w then waits w now timeout rounds else []

/-- The waits of a call. -/
def Kernel.waits (w : Wait α) (k : Kernel α) (timeout : ℤ) : List (Waited α) :=
  match k.failedSetup, k.connect with
  | none, some errno =>
    if inProgress errno then ConnectTimeout.waits w k.now timeout k.rounds else []
  | _, _ => []

/-- A wait has shown a connected socket. -/
def Waited.shows (w : Wait α) (r : Waited α) : Prop :=
  w.writable r.answer = true ∧ r.sockopt = .ok 0

/-- A wait is taken for one that has shown a connected socket: it has timed out, or the error of
the socket could not be read, or the socket was reported for another reason. -/
def Waited.misread (w : Wait α) (r : Waited α) : Prop :=
  w.rc r.answer = 0 ∨ 0 < w.rc r.answer ∧ ((∃ errno, r.sockopt = .failed errno) ∨
      w.writable r.answer = false ∧ r.sockopt = .ok 0)

/-- A call that returns a non-negative number has connected, or its last wait has shown a
connected socket. -/
def Sound (w : Wait α) (k : Kernel α) (timeout : ℤ) (outcome : Option Outcome) : Prop :=
  ∀ o ∈ outcome, 0 ≤ o.rc → k.connect = none ∨ ∃ r ∈ (k.waits w timeout).getLast?, r.shows w

/-- The last wait of a call is not misread, or the flags of the socket are not restored. -/
def WellRead (w : Wait α) (k : Kernel α) (timeout : ℤ) : Prop :=
  k.restoreFl < 0 ∨ ∀ r ∈ (k.waits w timeout).getLast?, ¬r.misread w

variable {w : Wait α} {k : Kernel α} {now : Timespec} {timeout : ℤ} {rounds : List (Round α)}
  {r : Waited α}

/-- A wait that is misread has shown nothing. -/
theorem Waited.not_shows_of_misread (h : r.misread w) : ¬r.shows w := by
  rintro ⟨hwritable, hok⟩
  rcases h with hzero | ⟨-, ⟨errno, hfailed⟩ | ⟨hnot, -⟩⟩
  · exact absurd (w.pos_of_writable _ hwritable) (by omega)
  · rw [hok] at hfailed
    cases hfailed
  · rw [hwritable] at hnot
    cases hnot

/-- The loop goes on after a wait exactly if that repeats it. -/
theorem repeats_iff : ((w.outcome r.answer r.sockopt).1 = -11 ∧
    (w.outcome r.answer r.sockopt).2 = eintr) ↔ r.repeats w := by
  have hge := w.neg_one_le r.answer
  unfold Wait.outcome Waited.repeats
  split_ifs with hpos
  · cases r.sockopt with
    | failed errno =>
      refine iff_of_false (fun h => ?_) nofun
      have hrc : w.rc r.answer = -11 := h.1
      omega
    | ok error =>
      simp only [Sockopt.ok.injEq]
      constructor
      · exact fun h => ⟨hpos, h.2⟩
      · rintro ⟨-, rfl⟩
        exact ⟨rfl, rfl⟩
  · refine iff_of_false (fun h => ?_) fun h => hpos h.1
    have hrc : w.rc r.answer = -11 := h.1
    omega

/-- What is left in the variable after a wait is not negative exactly if the wait has shown a
connected socket or is misread. -/
theorem outcome_nonneg_iff : 0 ≤ (w.outcome r.answer r.sockopt).1 ↔ r.shows w ∨ r.misread w := by
  have hwritable := w.pos_of_writable r.answer
  unfold Wait.outcome Waited.shows Waited.misread
  split_ifs with hpos
  · cases r.sockopt with
    | failed errno =>
      exact iff_of_true (Int.le_of_lt hpos) (.inr (.inr ⟨hpos, .inl ⟨errno, rfl⟩⟩))
    | ok error =>
      by_cases hzero : error = 0
      · subst hzero
        refine iff_of_true (Int.le_of_lt hpos) ?_
        cases hw : w.writable r.answer with
        | true => exact .inl ⟨rfl, rfl⟩
        | false => exact .inr (.inr ⟨hpos, .inr ⟨rfl, rfl⟩⟩)
      · have hne : w.rc r.answer ≠ 0 := by omega
        simp [hzero, hne]
  · have hnot : ¬w.writable r.answer = true := fun h => hpos (hwritable h)
    constructor
    · intro hge
      have hge' : 0 ≤ w.rc r.answer := hge
      exact .inr (.inl (by omega))
    · rintro (⟨h, -⟩ | hzero | ⟨h, -⟩)
      · exact absurd h hnot
      · exact Int.le_of_eq hzero.symm
      · exact absurd h hpos

/-- The last wait, when one that does not matter is put in front. -/
theorem exists_getLast?_cons_iff {P : Waited α → Prop} {rs : List (Waited α)} (h : ¬P r) :
    (∃ r' ∈ (r :: rs).getLast?, P r') ↔ ∃ r' ∈ rs.getLast?, P r' := by
  rw [List.getLast?_cons]
  cases rs.getLast? with
  | none => simp [h]
  | some last => simp

/-- The loop returns a non-negative number exactly if its last wait has shown a connected socket
or is misread. -/
theorem waitLoop_nonneg_iff : (∃ rc, waitLoop w now timeout rounds = some rc ∧ 0 ≤ rc) ↔
    ∃ r ∈ (waits w now timeout rounds).getLast?, r.shows w ∨ r.misread w := by
  induction rounds with
  | nil => simp [waitLoop, waits]
  | cons round rounds ih =>
    rw [waitLoop, waits]
    by_cases hlate : msUntilDeadline now round.deadline > timeout
    · simp [hlate]
    · simp only [if_neg hlate]
      generalize hr : Waited.mk (round.answer (w.time (msUntilDeadline now round.deadline)))
        round.sockopt = r
      have houtcome : w.outcome (round.answer (w.time (msUntilDeadline now round.deadline)))
          round.sockopt = w.outcome r.answer r.sockopt := by rw [← hr]
      simp only [houtcome, repeats_iff]
      by_cases hrepeats : r.repeats w
      · have hneither : ¬(r.shows w ∨ r.misread w) := by
          rw [← outcome_nonneg_iff, (repeats_iff.mpr hrepeats).1]
          decide
        rw [if_pos hrepeats, if_pos hrepeats, ih, exists_getLast?_cons_iff hneither]
      · rw [if_neg hrepeats, if_neg hrepeats, List.getLast?_singleton]
        simp [outcome_nonneg_iff]

/-- What the loop returns is sound exactly if its last wait is not misread. -/
theorem waitLoop_sound_iff : (∀ rc ∈ waitLoop w now timeout rounds, 0 ≤ rc →
      ∃ r ∈ (waits w now timeout rounds).getLast?, r.shows w) ↔
    ∀ r ∈ (waits w now timeout rounds).getLast?, ¬r.misread w := by
  constructor
  · intro hsound r hr hmisread
    obtain ⟨rc, hrc, hge⟩ := waitLoop_nonneg_iff.mpr ⟨r, hr, .inr hmisread⟩
    obtain ⟨r', hr', hshows⟩ := hsound rc hrc hge
    obtain rfl := Option.mem_unique hr hr'
    exact Waited.not_shows_of_misread hmisread hshows
  · intro hwell rc hrc hge
    obtain ⟨r, hr, hshows | hmisread⟩ := waitLoop_nonneg_iff.mp ⟨rc, hrc, hge⟩
    · exact ⟨r, hr, hshows⟩
    · exact absurd hmisread (hwell r hr)

/-- A failure before `connect` is a negative number. -/
theorem rc_neg_of_failedSetup {failure : Outcome} (h : k.failedSetup = some failure) :
    failure.rc < 0 := by
  rw [Kernel.failedSetup] at h
  repeat' split at h
  all_goals cases h <;> decide

/-- A call is sound exactly if its last wait is well read. -/
theorem sound_iff : Sound w k timeout (connectWithTimeout w k timeout) ↔ WellRead w k timeout := by
  unfold Sound WellRead connectWithTimeout connected Kernel.waits
  cases hsetup : k.failedSetup with
  | some failure =>
    have hneg := rc_neg_of_failedSetup hsetup
    refine iff_of_true ?_ (.inr nofun)
    rintro o ⟨⟩ hge
    omega
  | none =>
    cases hconnect : k.connect with
    | none => exact iff_of_true (fun _ _ _ => .inl rfl) (.inr nofun)
    | some errno =>
      by_cases hprogress : inProgress errno
      · simp only [if_pos hprogress]
        by_cases hrestore : k.restoreFl < 0
        · refine iff_of_true (fun o ho hge => ?_) (.inl hrestore)
          obtain ⟨rc, -, rfl⟩ := Option.map_eq_some_iff.mp ho
          simp [hrestore] at hge
        · simp only [if_neg hrestore]
          rw [or_iff_right hrestore, ← waitLoop_sound_iff]
          constructor
          · intro hsound rc hrc hge
            exact (hsound ⟨rc, ""⟩ (by rw [hrc]; rfl) hge).resolve_left nofun
          · intro hsound o ho hge
            obtain ⟨rc, hrc, rfl⟩ := Option.map_eq_some_iff.mp ho
            exact .inr (hsound rc hrc hge)
      · simp only [if_neg hprogress]
        refine iff_of_true ?_ (.inr nofun)
        rintro o ⟨⟩ hge
        split_ifs at hge <;> cases hge

/-- Each of the two versions returns a non-negative number only for a connected socket exactly if
the last wait is well read. -/
theorem connectWithTimeout_sound_iff (polled : Kernel PollAnswer) (selected : Kernel SelectAnswer)
    (timeout : ℤ) :
    (Sound poll polled timeout (Poll.connectWithTimeout polled timeout) ↔
      WellRead poll polled timeout) ∧
    (Sound select selected timeout (Select.connectWithTimeout selected timeout) ↔
      WellRead select selected timeout) :=
  ⟨sound_iff, sound_iff⟩

/-- A call whose connection is in progress and that waits once. -/
def waitsOnce (answer : α) (sockopt : Sockopt) : Kernel α where
  socket := 3
  inetPton := 1
  setRcvTimeo := 0
  setSndTimeo := 0
  getFl := 2
  setFl := 0
  connect := some 115
  now := ⟨0, 0⟩
  rounds := [⟨⟨0, 0⟩, fun _ => answer, sockopt⟩]
  restoreFl := 0

/-- Both versions return zero when the wait has timed out, without a connected socket, and one
when the error of the socket could not be read. -/
theorem not_sound_waitsOnce : (¬Sound poll (waitsOnce .timeout (.ok 0)) 5000
      (Poll.connectWithTimeout (waitsOnce .timeout (.ok 0)) 5000)) ∧
    (¬Sound select (waitsOnce .timeout (.ok 0)) 5000
      (Select.connectWithTimeout (waitsOnce .timeout (.ok 0)) 5000)) ∧
    ¬Sound select (waitsOnce .ready (.failed 9)) 5000
      (Select.connectWithTimeout (waitsOnce .ready (.failed 9)) 5000) := by
  refine ⟨fun h => ?_, fun h => ?_, fun h => ?_⟩
  · obtain ⟨r, hr, hshows, -⟩ := (h ⟨0, ""⟩ rfl (by decide)).resolve_left nofun
    cases hr
    cases hshows
  · obtain ⟨r, hr, hshows, -⟩ := (h ⟨0, ""⟩ rfl (by decide)).resolve_left nofun
    cases hr
    cases hshows
  · obtain ⟨r, hr, -, hok⟩ := (h ⟨1, ""⟩ rfl (by decide)).resolve_left nofun
    cases hr
    cases hok

end Hack.ConnectTimeout
