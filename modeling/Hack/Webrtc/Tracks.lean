import Hack.Webrtc.Round

/-!
# The tracks published in a room

A publisher's track is added when its stream begins and removed when it ends.
Both calls change the table under the list lock and signal the room afterwards,
so signalling rounds may fall anywhere between the changes of other publishers.
The purpose of the table is to list the tracks that were added and not yet
removed. A removal drops the entry of the whole room, so the table does so in
exactly those runs in which every track that is removed is the last one of its
room at that time.
-/

namespace Hack.Webrtc

/-- The data `addTrack` reads of the track received from a publisher. -/
structure TrackRemote where
  /-- The ID of the track. -/
  id : String
  /-- The codec of the track. -/
  codec : String
  /-- The stream the track belongs to. -/
  streamId : String
deriving DecidableEq

/-- `NewTrackLocalStaticRTP` with the data of the remote track. -/
def TrackRemote.toLocal (t : TrackRemote) : TrackLocal := ⟨t.codec, t.streamId⟩

/-- The part of `addTrack` under the list lock. -/
def Server.publish (s : Server) (k : String) (t : TrackRemote) : Server :=
  { s with roomTrackLocals := s.roomTrackLocals.insert k ((s.tracks k).insert t.id t.toLocal) }

/-- The part of `removeTrack` under the list lock, which ignores the track. -/
def Server.unpublish (s : Server) (k : String) (_ : String) : Server :=
  { s with roomTrackLocals := s.roomTrackLocals.erase k }

/-- `addTrack`, with the signalling round deferred to its end. -/
def addTrack (attemptLimit : Int64) (envs : List (ℕ → PeerEnv)) (s : Server) (k : String)
    (t : TrackRemote) : Server × TrackLocal :=
  ((signalPeerConnections attemptLimit envs (s.publish k t) k).1, t.toLocal)

/-- `removeTrack`, with the signalling round deferred to its end. -/
def removeTrack (attemptLimit : Int64) (envs : List (ℕ → PeerEnv)) (s : Server) (k : String)
    (id : String) : Server :=
  (signalPeerConnections attemptLimit envs (s.unpublish k id) k).1

/-- The atomic steps of concurrent calls: each section under the list lock. -/
inductive TrackEvent
  /-- The table change of `addTrack`. -/
  | publish (k : String) (t : TrackRemote)
  /-- The table change of `removeTrack`. -/
  | unpublish (k : String) (id : String)
  /-- A signalling round of a room. -/
  | signal (attemptLimit : Int64) (envs : List (ℕ → PeerEnv)) (k : String)

/-- The server after one event. -/
def Server.trackStep (s : Server) : TrackEvent → Server
  | .publish k t => s.publish k t
  | .unpublish k id => s.unpublish k id
  | .signal attemptLimit envs k => (signalPeerConnections attemptLimit envs s k).1

/-- A call of `addTrack` is its table change followed by a round. -/
theorem addTrack_eq_trackStep (attemptLimit : Int64) (envs : List (ℕ → PeerEnv)) (s : Server)
    (k : String) (t : TrackRemote) : (addTrack attemptLimit envs s k t).1 =
      [TrackEvent.publish k t, .signal attemptLimit envs k].foldl Server.trackStep s := rfl

/-- A call of `removeTrack` is its table change followed by a round. -/
theorem removeTrack_eq_trackStep (attemptLimit : Int64) (envs : List (ℕ → PeerEnv)) (s : Server)
    (k id : String) : removeTrack attemptLimit envs s k id =
      [TrackEvent.unpublish k id, .signal attemptLimit envs k].foldl Server.trackStep s := rfl

/-- The tracks added and not yet removed, with their rooms. -/
abbrev LiveTracks := List (String × TrackRemote)

/-- The live tracks after one event. -/
@[simp] def LiveTracks.step (live : LiveTracks) : TrackEvent → LiveTracks
  | .publish k t => live ++ [(k, t)]
  | .unpublish k id => live.filter fun x => ¬(x.1 = k ∧ x.2.id = id)
  | .signal .. => live

/-- What the callers promise, given the IDs used so far: every added track has a
new ID, and only a live track is removed. -/
def WellFormedRun : List String → LiveTracks → List TrackEvent → Prop
  | _, _, [] => True
  | used, live, .publish k t :: events =>
    t.id ∉ used ∧ WellFormedRun (t.id :: used) (live.step (.publish k t)) events
  | used, live, .unpublish k id :: events =>
    (∃ x ∈ live, x.1 = k ∧ x.2.id = id) ∧ WellFormedRun used (live.step (.unpublish k id)) events
  | used, live, .signal .. :: events => WellFormedRun used live events

/-- The table of every room lists exactly its live tracks, with their data. -/
def ListsLive (s : Server) (live : LiveTracks) : Prop :=
  ∀ k id info, (s.tracks k).lookup id = some info ↔
    ∃ t, (k, t) ∈ live ∧ t.id = id ∧ t.toLocal = info

/-- The table lists the live tracks at the start and after each event of a run. -/
def ListsLiveAlong : Server → LiveTracks → List TrackEvent → Prop
  | s, live, [] => ListsLive s live
  | s, live, event :: events =>
    ListsLive s live ∧ ListsLiveAlong (s.trackStep event) (live.step event) events

/-- Every removal of a run finds no other live track in its room. -/
def RemovesLast : LiveTracks → List TrackEvent → Prop
  | _, [] => True
  | live, event :: events =>
    (∀ k id, event = .unpublish k id → ∀ x ∈ live, x.1 = k → x.2.id = id) ∧
      RemovesLast (live.step event) events

variable {s : Server} {live : LiveTracks} {k : String} {events : List TrackEvent}

/-- Publishing changes the table of its room only. -/
theorem Server.tracks_publish (s : Server) (k room : String) (t : TrackRemote) :
    (s.publish k t).tracks room =
      if room = k then (s.tracks k).insert t.id t.toLocal else s.tracks room := by
  split_ifs with hroom
  · subst hroom
    simp [Server.tracks, Server.publish]
  · simp [Server.tracks, Server.publish, AList.lookup_insert_ne hroom]

/-- A removal empties the table of its room. -/
theorem Server.tracks_unpublish (s : Server) (k id room : String) :
    (s.unpublish k id).tracks room = if room = k then ∅ else s.tracks room := by
  split_ifs with hroom
  · subst hroom
    simp [Server.tracks, Server.unpublish]
  · simp [Server.tracks, Server.unpublish, AList.lookup_erase_ne hroom]

/-- A signalling round changes no table. -/
theorem Server.tracks_signal (attemptLimit : Int64) (envs : List (ℕ → PeerEnv)) (s : Server)
    (k room : String) :
    (signalPeerConnections attemptLimit envs s k).1.tracks room = s.tracks room :=
  (s.signalFrom_progress attemptLimit 0 envs k).tracks_room room

/-- A track with a new ID is listed from then on, and displaces no other. -/
theorem ListsLive.publish {t : TrackRemote} (hlists : ListsLive s live)
    (hfresh : ∀ x ∈ live, x.2.id ≠ t.id) :
    ListsLive (s.publish k t) (live.step (.publish k t)) := by
  intro room id info
  have hold := hlists room id info
  rw [Server.tracks_publish]
  simp only [LiveTracks.step, List.mem_append, List.mem_singleton, Prod.mk.injEq]
  split_ifs with hroom
  · subst hroom
    rcases eq_or_ne id t.id with rfl | hid
    · rw [AList.lookup_insert, Option.some_inj]
      constructor
      · rintro rfl
        exact ⟨t, .inr ⟨rfl, rfl⟩, rfl, rfl⟩
      · rintro ⟨other, hother | ⟨-, rfl⟩, hid, hinfo⟩
        · exact absurd hid (hfresh _ hother)
        · exact hinfo
    · rw [AList.lookup_insert_ne hid, hold]
      refine exists_congr fun other => and_congr_left fun hother => ?_
      have hne : other ≠ t := fun h => hid (by rw [← hother.1, h])
      simp [hne]
  · simp [hold, hroom]

/-- A removal keeps the listing exactly when no other track of its room is live. -/
theorem ListsLive.unpublish_iff {id : String} (hlists : ListsLive s live) :
    ListsLive (s.unpublish k id) (live.step (.unpublish k id)) ↔
      ∀ x ∈ live, x.1 = k → x.2.id = id := by
  constructor
  · intro hafter x hx hroom
    by_contra hid
    have hlisted := (hafter k x.2.id x.2.toLocal).mpr
      ⟨x.2, by simp [← hroom, hx, hid], rfl, rfl⟩
    simp [Server.tracks_unpublish] at hlisted
  · intro hlast room other info
    rw [Server.tracks_unpublish]
    split_ifs with hroom
    · subst hroom
      refine ⟨by simp, ?_⟩
      rintro ⟨t, ht, -, -⟩
      obtain ⟨hmem, hne⟩ := List.mem_filter.mp ht
      exact absurd (hlast _ hmem rfl) (by simpa using hne)
    · simp [hlists room other info, hroom]

/-- The listing at the start is part of the listing along a run. -/
theorem ListsLiveAlong.head (h : ListsLiveAlong s live events) : ListsLive s live := by
  cases events with
  | nil => exact h
  | cons => exact h.1

/-- Along a run the listing survives each removal exactly when it removes the last
live track of a room, and always survives the other events. -/
theorem listsLiveAlong_iff {used : List String} (hrun : WellFormedRun used live events)
    (hused : ∀ x ∈ live, x.2.id ∈ used) (hlists : ListsLive s live) :
    ListsLiveAlong s live events ↔ RemovesLast live events := by
  induction events generalizing s live used with
  | nil => simpa [ListsLiveAlong, RemovesLast] using hlists
  | cons event events ih =>
    simp only [ListsLiveAlong, RemovesLast, hlists, true_and]
    cases event with
    | publish k t =>
      obtain ⟨hnew, hrest⟩ := hrun
      have hstep : ListsLive (s.publish k t) (live.step (.publish k t)) :=
        hlists.publish fun x hx heq => hnew (heq ▸ hused x hx)
      have hused' : ∀ x ∈ live.step (.publish k t), x.2.id ∈ t.id :: used := by
        intro x hx
        rcases List.mem_append.mp hx with hx | hx
        · exact List.mem_cons_of_mem _ (hused x hx)
        · simp [List.mem_singleton.mp hx]
      simpa [Server.trackStep] using ih hrest hused' hstep
    | unpublish k id =>
      have hiff : ListsLive (s.unpublish k id) (live.step (.unpublish k id)) ↔
          ∀ x ∈ live, x.1 = k → x.2.id = id := hlists.unpublish_iff
      have hused' : ∀ x ∈ live.step (.unpublish k id), x.2.id ∈ used := fun x hx =>
        hused x (List.mem_of_mem_filter hx)
      constructor
      · intro halong
        have hstep := halong.head
        refine ⟨?_, (ih hrun.2 hused' hstep).mp halong⟩
        rintro _ _ ⟨⟩
        exact hiff.mp hstep
      · rintro ⟨hlast, hrest⟩
        exact (ih hrun.2 hused' (hiff.mpr (hlast k id rfl))).mpr hrest
    | signal attemptLimit envs k =>
      have hstep : ListsLive (s.trackStep (.signal attemptLimit envs k)) live := by
        intro room id info
        rw [Server.trackStep, Server.tracks_signal]
        exact hlists room id info
      simpa using ih hrun hused hstep

/-- **Published tracks of a room.** In every run of concurrent `addTrack` and
`removeTrack` calls that starts without published tracks, the tables list exactly
the live tracks after every step if and only if each removal takes place when no
other track of the same room is live. -/
theorem listsLiveAlong_iff_removesLast {s : Server} (hempty : ∀ k, s.tracks k = ∅)
    {events : List TrackEvent} (hrun : WellFormedRun [] [] events) :
    ListsLiveAlong s [] events ↔ RemovesLast [] events := by
  refine listsLiveAlong_iff hrun (by simp) fun k id info => ?_
  simp [hempty k]

/-- A publisher that leaves an otherwise empty room keeps the listing exact, also
while a track of another room is live. -/
theorem listsLiveAlong_two_rooms :
    let events := [TrackEvent.publish "a" ⟨"cam", "vp8", "s"⟩,
      .publish "b" ⟨"mic", "opus", "t"⟩, .unpublish "a" "cam"]
    RemovesLast [] events ∧ ListsLiveAlong (.initial fun _ => ⟨.new, [], []⟩) [] events := by
  intro events
  have hlast : RemovesLast [] events := by
    simp [events, RemovesLast]
  refine ⟨hlast, (listsLiveAlong_iff_removesLast ?_ ?_).mpr hlast⟩
  · exact fun _ => rfl
  · simp [events, WellFormedRun]

/-- Two publishers share a room. When the first one leaves, the table no longer
lists the track of the second, although it was not removed. -/
theorem removeTrack_drops_other_track :
    let events := [TrackEvent.publish "a" ⟨"cam", "vp8", "s"⟩,
      .publish "a" ⟨"mic", "opus", "t"⟩, .unpublish "a" "cam"]
    let start : Server := .initial fun _ => ⟨.new, [], []⟩
    WellFormedRun [] [] events ∧ events.foldl LiveTracks.step [] = [("a", ⟨"mic", "opus", "t"⟩)] ∧
      ((events.foldl Server.trackStep start).tracks "a").lookup "mic" = none ∧
      ¬ListsLiveAlong start [] events := by
  intro events start
  have hlookup : ((events.foldl Server.trackStep start).tracks "a").lookup "mic" = none := by
    decide
  refine ⟨by simp [events, WellFormedRun], by decide, hlookup, ?_⟩
  rintro ⟨-, -, -, hlists⟩
  have hlisted := (hlists "a" "mic" ⟨"opus", "t"⟩).mpr
    ⟨⟨"mic", "opus", "t"⟩, by decide, rfl, rfl⟩
  exact absurd (hlookup.symm.trans hlisted) (by decide)

end Hack.Webrtc
