import Hack.Webrtc.Sync
import Mathlib.Data.List.Count
import Mathlib.Data.List.Perm.Lattice
import Mathlib.Data.Option.Basic

/-!
# What a completed signalling round achieves

Every attempt, completed or not, makes progress in one sense: it keeps the
published tracks, the connection states and the received tracks, removes only
closed peers, and never lets a connection carry a track twice that it carried at
most once. These facts compose over the attempts of a round. An attempt that
reaches the end of the peers has in addition found all of them open and left
each of them sending published tracks only, and every published track either
sent to it or received from it.
-/

namespace Hack.Webrtc

/-- A connection in line with the published tracks of its room. -/
structure InSync (tracks : GoMap String TrackLocal) (pc : PeerConnection) : Prop where
  /-- Every sender that has a track has a published one. -/
  published : ∀ id, some id ∈ pc.senders → id ∈ tracks
  /-- Every published track is sent to the peer or received from it. -/
  covered : ∀ id ∈ tracks, some id ∈ pc.senders ∨ some id ∈ pc.receivers

variable {env : PeerEnv} {tracks : GoMap String TrackLocal} {id : String} {i : ℕ}
  {pc : PeerConnection}

/-- Removing stale senders never adds a sender of any track. -/
theorem count_removeStale_le (i : ℕ) (senders : List (Option String)) (id : String) :
    (removeStale env tracks i senders).1.count (some id) ≤ senders.count (some id) := by
  fun_induction removeStale env tracks i senders with
  | case1 => exact le_rfl
  | case2 i senders rest ih => simpa using ih
  | case3 i other senders hmem rest ih => simpa [List.count_cons] using ih
  | case4 i other senders hmem hok rest ih =>
    refine le_trans ?_ (List.count_le_count_cons)
    simpa using ih
  | case5 => exact le_rfl

/-- Removing stale senders keeps every sender of a published track. -/
theorem count_removeStale_of_mem (i : ℕ) (senders : List (Option String)) (hid : id ∈ tracks) :
    (removeStale env tracks i senders).1.count (some id) = senders.count (some id) := by
  fun_induction removeStale env tracks i senders with
  | case1 => rfl
  | case2 i senders rest ih => simpa using ih
  | case3 i other senders hmem rest ih => simpa [List.count_cons] using ih
  | case4 i other senders hmem hok rest ih =>
    have hne : other ≠ id := fun h => hmem (h ▸ hid)
    simpa [List.count_cons, hne] using ih
  | case5 => rfl

/-- A removal loop that was not left early keeps senders of published tracks only. -/
theorem mem_of_mem_removeStale {senders : List (Option String)}
    (hok : (removeStale env tracks i senders).2 = true)
    (hid : some id ∈ (removeStale env tracks i senders).1) : id ∈ tracks := by
  fun_induction removeStale env tracks i senders with
  | case1 => simp at hid
  | case2 i senders rest ih => exact ih hok (by simpa using hid)
  | case3 i other senders hmem rest ih =>
    rcases List.mem_cons.mp hid with heq | hrest
    · cases heq
      exact hmem
    · exact ih hok hrest
  | case4 i other senders hmem hremove rest ih => exact ih hok (by simpa using hid)
  | case5 => simp at hok

/-- The addition loop lists one new sender for each of some IDs that are not
excluded, and for all of them when it was not left early. -/
theorem addMissing_perm (env : PeerEnv) (existing ids : List String)
    (senders : List (Option String)) :
    ∃ added, added.Sublist (ids.filter (· ∉ existing)) ∧
      (addMissing env existing ids senders).1.Perm (added.map some ++ senders) ∧
      ((addMissing env existing ids senders).2 = true → added = ids.filter (· ∉ existing)) := by
  fun_induction addMissing env existing ids senders with
  | case1 senders => exact ⟨[], List.nil_sublist _, .refl _, fun _ => rfl⟩
  | case2 id ids senders hmem ih => simpa [hmem] using ih
  | case3 id ids senders hmem hadd => exact ⟨[], List.nil_sublist _, .refl _, by simp⟩
  | case4 id ids senders hmem i hadd ih =>
    obtain ⟨added, hsub, hperm, hall⟩ := ih
    have hfilter : (id :: ids).filter (· ∉ existing) = id :: ids.filter (· ∉ existing) := by
      simp [hmem]
    refine ⟨id :: added, hfilter ▸ hsub.cons_cons id, ?_, fun hok => by rw [hfilter, hall hok]⟩
    have hnew := List.perm_insertIdx (some id) senders (Nat.min_le_right i senders.length)
    exact hperm.trans ((hnew.append_left _).trans List.perm_middle)

/-- What `syncPeer` leaves of a connection, whether it was left early or not. -/
structure PeerConnection.Kept (before after : PeerConnection) : Prop where
  /-- The connection state stays. -/
  state_eq : after.state = before.state
  /-- The received tracks stay. -/
  receivers_eq : after.receivers = before.receivers
  /-- No track gets a second sender. -/
  count_le : ∀ id, after.senders.count (some id) ≤ max 1 (before.senders.count (some id))

/-- An excluded ID is the ID of a sender or of a receiver. -/
theorem PeerConnection.mem_existingSenders :
    id ∈ pc.existingSenders ↔ some id ∈ pc.senders ∨ some id ∈ pc.receivers := by
  simp [existingSenders]

/-- The senders of a track after both loops ran: those the removal left, and one
new sender where the addition reached a published track without one. -/
theorem count_addMissing_removeStale (pc : PeerConnection) (id : String) :
    let kept := (removeStale env tracks 0 pc.senders).1
    let added := addMissing env pc.existingSenders (env.rangeOrder tracks.keys) kept
    added.1.count (some id) ≤ max 1 (pc.senders.count (some id)) := by
  intro kept added
  obtain ⟨new, hsub, hperm, -⟩ := addMissing_perm env pc.existingSenders
    (env.rangeOrder tracks.keys) kept
  have hnodup : (env.rangeOrder tracks.keys).Nodup :=
    (env.rangeOrder_perm _).nodup_iff.mpr tracks.keys_nodup
  have hkept : kept.count (some id) ≤ pc.senders.count (some id) := count_removeStale_le ..
  have hcount : added.1.count (some id) = new.count id + kept.count (some id) := by
    rw [hperm.count_eq, List.count_append,
      List.count_map_of_injective _ _ (Option.some_injective _)]
  by_cases hexisting : id ∈ pc.existingSenders
  · have hnew : new.count id = 0 := by
      refine List.count_eq_zero.mpr fun hid => ?_
      simpa [hexisting] using (List.mem_filter.mp (hsub.subset hid)).2
    omega
  · have hnew : new.count id ≤ 1 :=
      List.nodup_iff_count_le_one.mp ((hnodup.filter _).sublist hsub) id
    have hsenders : pc.senders.count (some id) = 0 :=
      List.count_eq_zero.mpr fun h => hexisting (PeerConnection.mem_existingSenders.mpr (.inl h))
    omega

/-- Only tracks without a sender get a new one, so no track gets a second. -/
theorem syncPeer_kept (pc : PeerConnection) : pc.Kept (syncPeer env tracks pc).1 := by
  simp only [syncPeer]
  split
  · exact ⟨rfl, rfl, fun id => count_addMissing_removeStale pc id⟩
  · refine ⟨rfl, rfl, fun id => ?_⟩
    exact Nat.le_trans (count_removeStale_le 0 pc.senders id) (Nat.le_max_right ..)

/-- A connection whose body was not left early is in line with the room. -/
theorem syncPeer_inSync {message : SignalInfo} (hdone : (syncPeer env tracks pc).2 = some message) :
    InSync tracks (syncPeer env tracks pc).1 := by
  simp only [syncPeer] at hdone ⊢
  split_ifs at hdone ⊢ with hkept hadded
  obtain ⟨new, -, hperm, hall⟩ := addMissing_perm env pc.existingSenders
    (env.rangeOrder tracks.keys) (removeStale env tracks 0 pc.senders).1
  have hnew := hall hadded
  have hrange : ∀ id, id ∈ env.rangeOrder tracks.keys ↔ id ∈ tracks := fun id =>
    (env.rangeOrder_perm _).mem_iff
  refine ⟨fun id hid => ?_, fun id hid => ?_⟩
  · rcases List.mem_append.mp (hperm.mem_iff.mp hid) with hid | hid
    · obtain ⟨other, hother, heq⟩ := List.mem_map.mp hid
      cases heq
      exact (hrange _).mp (List.mem_of_mem_filter (hnew ▸ hother))
    · exact mem_of_mem_removeStale hkept hid
  · by_cases hexisting : id ∈ pc.existingSenders
    · refine (PeerConnection.mem_existingSenders.mp hexisting).imp_left fun hsender => ?_
      refine hperm.mem_iff.mpr (List.mem_append_right _ (List.count_pos_iff.mp ?_))
      rw [count_removeStale_of_mem 0 pc.senders hid]
      exact List.count_pos_iff.mpr hsender
    · have hmem : id ∈ new := by
        rw [hnew]
        exact List.mem_filter.mpr ⟨(hrange id).mpr hid, by simpa using hexisting⟩
      exact .inl (hperm.mem_iff.mpr (List.mem_append_left _ (List.mem_map_of_mem hmem)))

/-- Whether the connection of a peer is open. -/
def Server.isOpen (s : Server) (peer : PeerConnectionState) : Bool :=
  (s.connections peer.peerConnection).state ≠ .closed

/-- What any number of attempts keeps of the server. -/
structure Progress (k : String) (s t : Server) : Prop where
  /-- The published tracks stay. -/
  tracks_eq : t.roomTrackLocals = s.roomTrackLocals
  /-- The registered users stay. -/
  roomReg_eq : t.roomReg = s.roomReg
  /-- Only closed peers of the room are removed. -/
  peers_filter : (t.peers k).filter s.isOpen = (s.peers k).filter s.isOpen
  /-- The peers of other rooms stay. -/
  peers_other : ∀ room ≠ k, t.peers room = s.peers room
  /-- No connection changes more than its senders, or gains a duplicate. -/
  kept : ∀ c, (s.connections c).Kept (t.connections c)

variable {k : String} {s t u : Server}

/-- Nothing has changed before the first attempt. -/
theorem Progress.refl (k : String) (s : Server) : Progress k s s :=
  ⟨rfl, rfl, rfl, fun _ _ => rfl, fun _ => ⟨rfl, rfl, fun _ => Nat.le_max_right ..⟩⟩

/-- The open connections stay the same ones. -/
theorem Progress.isOpen_eq (h : Progress k s t) : t.isOpen = s.isOpen := by
  funext peer
  simp only [Server.isOpen, (h.kept _).state_eq]

/-- Successive attempts keep what each of them keeps. -/
theorem Progress.trans (hst : Progress k s t) (htu : Progress k t u) : Progress k s u := by
  refine ⟨htu.tracks_eq.trans hst.tracks_eq, htu.roomReg_eq.trans hst.roomReg_eq, ?_,
    fun room hroom => (htu.peers_other room hroom).trans (hst.peers_other room hroom), fun c => ?_⟩
  · rw [← hst.peers_filter, ← hst.isOpen_eq, htu.peers_filter]
  · have h₁ := hst.kept c
    have h₂ := htu.kept c
    refine ⟨h₂.state_eq.trans h₁.state_eq, h₂.receivers_eq.trans h₁.receivers_eq, fun id => ?_⟩
    have hle₁ := h₁.count_le id
    have hle₂ := h₂.count_le id
    omega

/-- Work on one connection is progress. -/
theorem Progress.update (c : ℕ) (hkept : (s.connections c).Kept pc) (sent : List (ℕ × SignalInfo)) :
    Progress k s { s with connections := Function.update s.connections c pc, sent } := by
  refine ⟨rfl, rfl, rfl, fun _ _ => rfl, fun other => ?_⟩
  rcases eq_or_ne other c with rfl | hne
  · simpa using hkept
  · simpa [hne] using (Progress.refl k s).kept other

/-- Removing a closed peer is progress. -/
theorem Progress.erase {peer : PeerConnectionState} (hpeer : (s.peers k)[i]? = some peer)
    (hclosed : s.isOpen peer = false) : Progress k s (s.setPeers k ((s.peers k).eraseIdx i)) := by
  refine ⟨rfl, rfl, ?_, fun room hroom => s.peers_setPeers_of_ne hroom _, (Progress.refl k s).kept⟩
  obtain ⟨hi, hget⟩ := List.getElem?_eq_some_iff.mp hpeer
  have hsplit : s.peers k = (s.peers k).take i ++ peer :: (s.peers k).drop (i + 1) := by
    rw [← hget, List.getElem_cons_drop, List.take_append_drop]
  rw [Server.peers_setPeers, List.eraseIdx_eq_take_drop_succ]
  conv_rhs => rw [hsplit]
  simp [hclosed]

/-- An attempt is progress, wherever it stops. -/
theorem Server.attemptFrom_progress (env : ℕ → PeerEnv) (k : String) (s : Server) (i : ℕ)
    (rest : List PeerConnectionState) (hrest : (s.peers k).drop i = rest) :
    Progress k s (s.attemptFrom env k i rest).1 := by
  fun_induction Server.attemptFrom env k s i rest with
  | case1 s i => exact .refl k s
  | case2 s i peer rest pc hclosed =>
    have hpeer : (s.peers k)[i]? = some peer := by
      rw [← List.head?_drop, hrest, List.head?_cons]
    exact .erase hpeer (by simpa [Server.isOpen] using hclosed)
  | case3 s i peer rest pc hopen synced connections hnone =>
    exact .update _ (syncPeer_kept pc) s.sent
  | case4 s i peer rest pc hopen synced connections message hmessage ih =>
    have hnext : (s.peers k).drop (i + 1) = rest := by
      rw [← List.tail_drop, hrest, List.tail_cons]
    exact (Progress.update _ (syncPeer_kept pc) _).trans (ih hnext)

/-- What an attempt achieves that reaches the end after visiting some peers. -/
structure Completed (k : String) (s t : Server) (visited : List PeerConnectionState) : Prop where
  /-- No peer was removed. -/
  peers_eq : t.peers k = s.peers k
  /-- Connections in line with the room stay so, as a peer may be listed twice. -/
  stays : ∀ c, InSync (s.tracks k) (s.connections c) → InSync (s.tracks k) (t.connections c)
  /-- Every visited peer was open. -/
  isOpen : ∀ peer ∈ visited, s.isOpen peer = true
  /-- Every visited peer is now in line with the room. -/
  inSync : ∀ peer ∈ visited, InSync (s.tracks k) (t.connections peer.peerConnection)

/-- An attempt that returns false has completed the peers from its position on. -/
theorem Server.attemptFrom_completed (env : ℕ → PeerEnv) (k : String) (s : Server) (i : ℕ)
    (rest : List PeerConnectionState) (hdone : (s.attemptFrom env k i rest).2 = false) :
    Completed k s (s.attemptFrom env k i rest).1 rest := by
  fun_induction Server.attemptFrom env k s i rest with
  | case1 s i => exact ⟨rfl, fun _ h => h, by simp, by simp⟩
  | case2 => simp at hdone
  | case3 => simp at hdone
  | case4 s i peer rest pc hopen synced connections message hmessage ih =>
    obtain ⟨hpeers, hstays, hrestOpen, hrestSync⟩ := ih hdone
    have hsynced : InSync (s.tracks k) (connections peer.peerConnection) := by
      simpa [connections] using syncPeer_inSync hmessage
    have hprogress : Progress k s { s with
        connections, sent := s.sent ++ [(peer.websocket, message)] } :=
      .update _ (syncPeer_kept pc) _
    refine ⟨hpeers, fun c hc => hstays c ?_, ?_, ?_⟩
    · rcases eq_or_ne c peer.peerConnection with rfl | hne
      · exact hsynced
      · have hother : connections c = s.connections c := Function.update_of_ne hne _ _
        change InSync (s.tracks k) (connections c)
        exact hother.symm ▸ hc
    · rw [← hprogress.isOpen_eq]
      refine List.forall_mem_cons.mpr ⟨?_, hrestOpen⟩
      rw [hprogress.isOpen_eq]
      simpa [Server.isOpen] using hopen
    · exact List.forall_mem_cons.mpr ⟨hstays _ hsynced, hrestSync⟩

/-- What a completed signalling round of a room has achieved. -/
structure RoundComplete (k : String) (s t : Server) : Prop where
  /-- The published tracks are the same ones. -/
  tracks_eq : t.tracks k = s.tracks k
  /-- The peers left are the open ones, in their order. -/
  peers_eq : t.peers k = (s.peers k).filter s.isOpen
  /-- Every sender of a peer with a track carries a published one. -/
  published : ∀ peer ∈ t.peers k, ∀ id,
    some id ∈ (t.connections peer.peerConnection).senders → id ∈ t.tracks k
  /-- Every published track is sent to each peer, or received from it. -/
  covered : ∀ peer ∈ t.peers k, ∀ id ∈ t.tracks k,
    some id ∈ (t.connections peer.peerConnection).senders ∨
      some id ∈ (t.connections peer.peerConnection).receivers
  /-- A track carried by two senders of a peer was so before the round. -/
  no_new_duplicate : ∀ peer ∈ t.peers k, ∀ id,
    2 ≤ (t.connections peer.peerConnection).senders.count (some id) →
      2 ≤ (s.connections peer.peerConnection).senders.count (some id)

/-- Progress keeps the published tracks of every room. -/
theorem Progress.tracks_room (h : Progress k s t) (room : String) :
    t.tracks room = s.tracks room := by
  simp only [Server.tracks, h.tracks_eq]

/-- A completed attempt after any progress completes the round. -/
theorem Progress.roundComplete (hst : Progress k s t) (htu : Progress k t u)
    (hdone : Completed k t u (t.peers k)) : RoundComplete k s u := by
  have hsu := hst.trans htu
  have hsync : ∀ peer ∈ u.peers k, InSync (u.tracks k) (u.connections peer.peerConnection) := by
    intro peer hpeer
    rw [htu.tracks_room k]
    exact hdone.inSync peer (hdone.peers_eq ▸ hpeer)
  refine ⟨hsu.tracks_room k, ?_, fun peer hpeer => (hsync peer hpeer).published,
    fun peer hpeer => (hsync peer hpeer).covered, fun peer _ id hdup => ?_⟩
  · rw [← hst.peers_filter, hdone.peers_eq, ← hst.isOpen_eq]
    exact (List.filter_eq_self.mpr hdone.isOpen).symm
  · have hle := (hsu.kept peer.peerConnection).count_le id
    omega

/-- A round is progress, however it ends. -/
theorem Server.signalFrom_progress (attemptLimit syncAttempt : Int64)
    (envs : List (ℕ → PeerEnv)) (k : String) (s : Server) :
    Progress k s (s.signalFrom attemptLimit k envs syncAttempt).1 := by
  fun_induction Server.signalFrom attemptLimit k envs syncAttempt s with
  | case1 syncAttempt s => exact .refl k s
  | case2 => exact .refl k _
  | case3 env envs syncAttempt s hlimit attempt hagain ih =>
    exact (s.attemptFrom_progress env k 0 _ rfl).trans ih
  | case4 env envs syncAttempt s hlimit attempt hfalse =>
    exact s.attemptFrom_progress env k 0 _ rfl

/-- The loop of a round completes it when it ends with an attempt that returned false. -/
theorem Server.signalFrom_roundComplete {attemptLimit syncAttempt : Int64}
    {envs : List (ℕ → PeerEnv)} (hst : Progress k s t)
    (hdone : (t.signalFrom attemptLimit k envs syncAttempt).2 = .synced) :
    RoundComplete k s (t.signalFrom attemptLimit k envs syncAttempt).1 := by
  fun_induction Server.signalFrom attemptLimit k envs syncAttempt t with
  | case1 => split at hdone <;> cases hdone
  | case2 => cases hdone
  | case3 env envs syncAttempt t hlimit attempt hagain ih =>
    exact ih (hst.trans (t.attemptFrom_progress env k 0 _ rfl)) hdone
  | case4 env envs syncAttempt t hlimit attempt hfalse =>
    exact hst.roundComplete (t.attemptFrom_progress env k 0 _ rfl)
      (t.attemptFrom_completed env k 0 _ (Bool.eq_false_iff.mpr hfalse))

/-- **Meaning of a completed signalling round.** Whatever the library calls do,
when `signalPeerConnections` ends with an attempt that returned false, the room
has exactly its open peers left, in order, each of them is sent published tracks
only and lacks none of them, and no duplicate sender was created. -/
theorem signalPeerConnections_roundComplete {attemptLimit : Int64} {envs : List (ℕ → PeerEnv)}
    {s s' : Server} {k : String}
    (hround : signalPeerConnections attemptLimit envs s k = (s', .synced)) :
    RoundComplete k s s' := by
  unfold signalPeerConnections at hround
  have hdone : (s.signalFrom attemptLimit k envs 0).2 = .synced := by rw [hround]
  simpa [hround] using Server.signalFrom_roundComplete (.refl k s) hdone

/-- An environment in which every call succeeds and maps keep their order. -/
def PeerEnv.willing : PeerEnv where
  removeTrack _ := true
  rangeOrder keys := keys
  rangeOrder_perm _ := .refl _
  addTrack _ := some 0
  createOffer := some "offer"
  setLocalDescription := true
  writeJSON := true

/-- A room with a closed peer and an open one that still sends a stale track and
lacks the track `cam`, which the closed peer had been sent already. -/
def Server.sample : Server where
  roomReg := ∅
  roomPeerConnections := (∅ : GoMap _ _).insert "room" [⟨0, 0⟩, ⟨1, 1⟩]
  roomTrackLocals := (∅ : GoMap _ _).insert "room" ((∅ : GoMap _ _).insert "cam" ⟨"vp8", "s"⟩)
  connections c := if c = 0 then ⟨.closed, [some "cam"], []⟩ else ⟨.connected, [some "old"], []⟩
  sent := []

/-- On the sample the first attempt removes the closed peer, and the second one
fails to write its offer, so the third attempt completes the round. -/
theorem signalPeerConnections_roundComplete_sample :
    let envs := [fun _ => .willing, fun _ => { PeerEnv.willing with writeJSON := false },
      fun _ => .willing]
    let round := signalPeerConnections 25 envs Server.sample "room"
    round.2 = .synced ∧ round.1.peers "room" = [⟨1, 1⟩] ∧
      (round.1.connections 1).senders = [some "cam", none] ∧
      RoundComplete "room" Server.sample round.1 := by
  intro envs round
  have houtcome : round.2 = .synced := by decide
  exact ⟨houtcome, by decide, by decide,
    signalPeerConnections_roundComplete (Prod.ext rfl houtcome)⟩

end Hack.Webrtc
