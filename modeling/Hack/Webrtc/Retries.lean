import Hack.Custody
import Hack.Webrtc.Round

/-!
# When a signalling round ends

A call of `signalPeerConnections` that runs out of attempts is repeated by a goroutine after three
seconds. Every attempt in which no call of the library fails either reaches the end or removes one
closed peer. So a room gets into line after as many repeated calls as the number of its closed
peers demands, and with a limit of zero attempts it never does.
-/

namespace Hack.Webrtc

/-- No call of the library fails. -/
structure PeerEnv.Willing (env : PeerEnv) : Prop where
  removeTrack : ∀ i, env.removeTrack i = true
  addTrack : ∀ id, (env.addTrack id).isSome = true
  createOffer : env.createOffer.isSome = true
  setLocalDescription : env.setLocalDescription = true
  writeJSON : env.writeJSON = true

/-- `signalPeerConnections` with the calls that repeat it, each with the environments of its
attempts: the server, the number of postponed calls, and how the last one has ended. -/
def signalRetries (attemptLimit : Int64) (k : String) :
    List (List (ℕ → PeerEnv)) → Server → Server × ℕ × SignalOutcome
  | [], s => (s, 0, .running)
  | envs :: calls, s =>
    let call := signalPeerConnections attemptLimit envs s k
    if call.2 = .postponed then
      let rest := signalRetries attemptLimit k calls call.1
      (rest.1, rest.2.1 + 1, rest.2.2)
    else (call.1, 0, call.2)

/-- The number of closed peers of a room. -/
def Server.closedPeers (s : Server) (k : String) : ℕ :=
  (s.peers k).countP fun peer => !s.isOpen peer

variable {env : PeerEnv} {tracks : GoMap String TrackLocal} {k : String} {s t : Server}
  {syncAttempt attemptLimit : Int64} {a n : ℕ}

/-- Every stale sender is removed. -/
theorem removeStale_willing (henv : env.Willing) (i : ℕ) (senders : List (Option String)) :
    (removeStale env tracks i senders).2 = true := by
  induction senders generalizing i with
  | nil => rfl
  | cons sender senders ih =>
    cases sender with
    | none => exact ih (i + 1)
    | some id =>
      rw [removeStale, henv.removeTrack i, if_pos rfl]
      split
      · exact ih (i + 1)
      · exact ih (i + 1)

/-- Every missing track is added. -/
theorem addMissing_willing (henv : env.Willing) (existing ids : List String)
    (senders : List (Option String)) : (addMissing env existing ids senders).2 = true := by
  induction ids generalizing senders with
  | nil => rfl
  | cons id ids ih =>
    obtain ⟨i, hi⟩ := Option.isSome_iff_exists.mp (henv.addTrack id)
    rw [addMissing, hi]
    split
    · exact ih senders
    · exact ih _

/-- An offer is sent to the peer. -/
theorem syncPeer_willing (henv : env.Willing) (tracks : GoMap String TrackLocal)
    (pc : PeerConnection) :
    ∃ message, (syncPeer env tracks pc).2 = some message := by
  obtain ⟨offer, hoffer⟩ := Option.isSome_iff_exists.mp henv.createOffer
  refine ⟨⟨"offer", "", offer⟩, ?_⟩
  rw [syncPeer, if_pos (removeStale_willing henv 0 pc.senders)]
  dsimp only
  rw [if_pos (addMissing_willing henv _ _ _), PeerEnv.sendOffer, hoffer, henv.setLocalDescription,
    henv.writeJSON]
  rfl

/-- Work on one connection leaves the closed peers alone. -/
theorem closedPeers_update (c : ℕ) {pc : PeerConnection} (hkept : (s.connections c).Kept pc)
    (sent : List (ℕ × SignalInfo)) :
    Server.closedPeers { s with connections := Function.update s.connections c pc, sent } k =
      s.closedPeers k := by
  have hopen := (Progress.update (k := k) c hkept sent).isOpen_eq
  unfold Server.closedPeers
  rw [hopen]
  rfl

/-- Removing a closed peer leaves one closed peer less. -/
theorem closedPeers_erase {i : ℕ} {peer : PeerConnectionState}
    (hpeer : (s.peers k)[i]? = some peer) (hclosed : s.isOpen peer = false) :
    (s.setPeers k ((s.peers k).eraseIdx i)).closedPeers k + 1 = s.closedPeers k := by
  have hcount := (Custody.perm_cons_eraseIdx hpeer).countP_eq fun peer => !s.isOpen peer
  rw [List.countP_cons_of_pos (by simp [hclosed])] at hcount
  unfold Server.closedPeers
  rw [Server.peers_setPeers]
  exact hcount.symm

/-- A willing attempt reaches the end, or removes one closed peer. -/
theorem attemptFrom_willing {env : ℕ → PeerEnv} (henv : ∀ i, (env i).Willing) (s : Server) (i : ℕ)
    (rest : List PeerConnectionState) (hrest : (s.peers k).drop i = rest) :
    (s.attemptFrom env k i rest).2 = true ∧
        (s.attemptFrom env k i rest).1.closedPeers k + 1 = s.closedPeers k ∨
      (s.attemptFrom env k i rest).2 = false ∧ ∀ peer ∈ rest, s.isOpen peer = true := by
  fun_induction Server.attemptFrom env k s i rest with
  | case1 s i => exact .inr ⟨rfl, by simp⟩
  | case2 s i peer rest pc hclosed =>
    have hpeer : (s.peers k)[i]? = some peer := by
      rw [← List.head?_drop, hrest, List.head?_cons]
    exact .inl ⟨rfl, closedPeers_erase hpeer (by simpa [Server.isOpen] using hclosed)⟩
  | case3 s i peer rest pc hopen synced connections hnone =>
    obtain ⟨message, hmessage⟩ := syncPeer_willing (henv i) (s.tracks k) pc
    rw [show synced.2 = some message from hmessage] at hnone
    cases hnone
  | case4 s i peer rest pc hopen synced connections message hmessage ih =>
    have hnext : (s.peers k).drop (i + 1) = rest := by
      rw [← List.tail_drop, hrest, List.tail_cons]
    have hkept : (s.connections peer.peerConnection).Kept synced.1 := syncPeer_kept pc
    have hsame :=
      (Progress.update (k := k) _ hkept (s.sent ++ [(peer.websocket, message)])).isOpen_eq
    have hclosed := closedPeers_update (k := k) _ hkept (s.sent ++ [(peer.websocket, message)])
    rcases ih hnext with ⟨hagain, hless⟩ | ⟨hend, hrestOpen⟩
    · exact .inl ⟨hagain, hless.trans hclosed⟩
    · refine .inr ⟨hend, List.forall_mem_cons.mpr ⟨by simpa [Server.isOpen] using hopen, ?_⟩⟩
      intro other hother
      rw [← hsame]
      exact hrestOpen other hother

/-- A willing attempt has to be repeated exactly when a peer is closed, and then removes one. -/
theorem attemptSync_willing {env : ℕ → PeerEnv} (henv : ∀ i, (env i).Willing) (s : Server)
    (k : String) :
    ((attemptSync env s k).2 = true ↔ 0 < s.closedPeers k) ∧
      ((attemptSync env s k).2 = true →
        (attemptSync env s k).1.closedPeers k + 1 = s.closedPeers k) := by
  rcases attemptFrom_willing henv s 0 (s.peers k) (List.drop_zero (l := s.peers k)) with
    ⟨hagain, hless⟩ | ⟨hend, hopen⟩
  · exact ⟨iff_of_true hagain (by omega), fun _ => hless⟩
  · have hzero : s.closedPeers k = 0 := by
      refine List.countP_eq_zero.mpr fun peer hpeer => ?_
      simp [hopen peer hpeer]
    have hend' : (attemptSync env s k).2 = false := hend
    rw [hend', hzero]
    simp

/-- One more attempt does not overflow the counter before the limit. -/
theorem toInt_add_one (ha : syncAttempt.toInt = a) (hn : attemptLimit.toInt = n) (hlt : a < n) :
    (syncAttempt + 1).toInt = (a + 1 : ℕ) := by
  have hbound := attemptLimit.toInt_lt
  rw [Int64.toInt_add, ha]
  change ((a : ℤ) + 1).bmod (2 ^ 64) = _
  rw [Int.bmod_eq_of_le (by omega) (by omega)]
  rfl

/-- How a willing call ends, and how many closed peers it leaves. -/
theorem signalFrom_willing (hn : attemptLimit.toInt = n) (envs : List (ℕ → PeerEnv))
    (henvs : ∀ env ∈ envs, ∀ i, (env i).Willing) (ha : syncAttempt.toInt = a) (hle : a ≤ n)
    (s : Server) (hmany : s.closedPeers k < envs.length) :
    (s.closedPeers k + a < n → (s.signalFrom attemptLimit k envs syncAttempt).2 = .synced) ∧
      (n ≤ s.closedPeers k + a → (s.signalFrom attemptLimit k envs syncAttempt).2 = .postponed ∧
        (s.signalFrom attemptLimit k envs syncAttempt).1.closedPeers k + n =
          s.closedPeers k + a) := by
  induction envs generalizing syncAttempt a s with
  | nil => simp at hmany
  | cons env envs ih =>
    have hlimit : syncAttempt = attemptLimit ↔ a = n := by
      rw [← Int64.toInt_inj, ha, hn]
      exact Int.natCast_inj
    obtain ⟨hagain, hless⟩ := attemptSync_willing (henvs env List.mem_cons_self) s k
    rw [Server.signalFrom]
    by_cases hend : a = n
    · rw [if_pos (hlimit.mpr hend)]
      exact ⟨fun h => by omega, fun _ => ⟨rfl, by rw [hend]⟩⟩
    · rw [if_neg fun h => hend (hlimit.mp h)]
      dsimp only
      split_ifs with hattempt
      · have hone := hless hattempt
        have hrest := ih (fun env henv => henvs env (List.mem_cons_of_mem _ henv))
          (toInt_add_one ha hn (by omega)) (by omega) (attemptSync env s k).1
          (by rw [List.length_cons] at hmany; omega)
        refine ⟨fun h => hrest.1 (by omega), fun h => ?_⟩
        obtain ⟨houtcome, hleft⟩ := hrest.2 (by omega)
        exact ⟨houtcome, by omega⟩
      · have hzero : s.closedPeers k = 0 := by
          by_contra hne
          exact hattempt (hagain.mpr (by omega))
        exact ⟨fun _ => rfl, fun h => by omega⟩

/-- The calls that follow any progress end the round. -/
theorem signalRetries_synced (hn : attemptLimit.toInt = n) (hpos : 0 < n)
    (calls : List (List (ℕ → PeerEnv))) (hst : Progress k s t)
    (hcalls : ∀ envs ∈ calls, t.closedPeers k < envs.length ∧ ∀ env ∈ envs, ∀ i, (env i).Willing)
    (hmany : t.closedPeers k / n < calls.length) :
    ∃ s', signalRetries attemptLimit k calls t = (s', t.closedPeers k / n, .synced) ∧
      RoundComplete k s s' := by
  induction calls generalizing t with
  | nil => simp at hmany
  | cons envs calls ih =>
    obtain ⟨henough, hwilling⟩ := hcalls envs List.mem_cons_self
    have hfirst : (0 : Int64).toInt = (0 : ℕ) := rfl
    obtain ⟨hsynced, hpostponed⟩ := signalFrom_willing hn envs hwilling hfirst (Nat.zero_le n) t
      henough
    rcases Nat.lt_or_ge (t.closedPeers k) n with hlt | hge
    · have hdone := hsynced hlt
      refine ⟨_, ?_, Server.signalFrom_roundComplete hst hdone⟩
      rw [signalRetries, signalPeerConnections, hdone, if_neg (by simp), Nat.div_eq_of_lt hlt]
    · obtain ⟨houtcome, hleft⟩ := hpostponed hge
      have hprogress := hst.trans (t.signalFrom_progress attemptLimit 0 envs k)
      have hdiv : t.closedPeers k / n =
          (t.signalFrom attemptLimit k envs 0).1.closedPeers k / n + 1 := by
        rw [← Nat.add_div_right _ hpos, hleft, Nat.add_zero]
      obtain ⟨s', hrest, hcomplete⟩ := ih hprogress
        (fun more hmore => ⟨by
          have hmem := (hcalls more (List.mem_cons_of_mem _ hmore)).1
          omega, (hcalls more (List.mem_cons_of_mem _ hmore)).2⟩)
        (by rw [List.length_cons] at hmany; omega)
      refine ⟨s', ?_, hcomplete⟩
      rw [signalRetries, signalPeerConnections, if_pos houtcome, hrest, hdiv]

/-- **Repeated calls bring the room into line.** Let no call of the library fail and let nothing
else happen in the room. With a positive limit of attempts, the call is postponed as many times as
the limit fits into the number of closed peers, and the next call completes the round. With a limit
of zero every call is postponed and changes nothing. -/
theorem signalRetries_end {attemptLimit : Int64} {n : ℕ} (hn : attemptLimit.toInt = n)
    (calls : List (List (ℕ → PeerEnv))) (s : Server) (k : String)
    (hcalls : ∀ envs ∈ calls, s.closedPeers k < envs.length ∧ ∀ env ∈ envs, ∀ i, (env i).Willing) :
    (0 < n → s.closedPeers k / n < calls.length →
      ∃ s', signalRetries attemptLimit k calls s = (s', s.closedPeers k / n, .synced) ∧
        RoundComplete k s s') ∧
    (n = 0 → signalRetries attemptLimit k calls s = (s, calls.length, .running)) := by
  refine ⟨fun hpos hmany => signalRetries_synced hn hpos calls (.refl k s) hcalls hmany,
    fun hzero => ?_⟩
  have hlimit : attemptLimit = 0 := by
    rw [← Int64.toInt_inj, hn, hzero]
    rfl
  subst hlimit
  clear hcalls
  induction calls with
  | nil => rfl
  | cons envs calls ih =>
    have hcall : signalPeerConnections 0 envs s k = (s, .postponed) := by
      cases envs with
      | nil => rfl
      | cons env envs => rw [signalPeerConnections, Server.signalFrom, if_pos rfl]
    rw [signalRetries, hcall, if_pos rfl, ih]
    rfl

/-- Two closed peers and a limit of one attempt. -/
def Server.twoClosed : Server :=
  { Server.sample with
    roomPeerConnections := (∅ : GoMap _ _).insert "room" [⟨0, 0⟩, ⟨1, 1⟩, ⟨0, 2⟩] }

/-- The third call completes the round. -/
theorem signalRetries_end_twoClosed : Server.twoClosed.closedPeers "room" = 2 ∧
      ∃ s', signalRetries 1 "room" (List.replicate 3 (List.replicate 3 fun _ => .willing))
        Server.twoClosed = (s', 2, .synced) ∧ s'.peers "room" = [⟨1, 1⟩] := by
  have hclosed : Server.twoClosed.closedPeers "room" = 2 := by decide
  have hwilling : PeerEnv.willing.Willing := ⟨fun _ => rfl, fun _ => rfl, rfl, rfl, rfl⟩
  have hlimit : (1 : Int64).toInt = (1 : ℕ) := rfl
  obtain ⟨s', hretries, hcomplete⟩ := (signalRetries_end hlimit
    (List.replicate 3 (List.replicate 3 fun _ => .willing)) Server.twoClosed "room" (by
      intro envs henvs
      obtain rfl := (List.mem_replicate.mp henvs).2
      refine ⟨by rw [hclosed]; decide, fun env henv i => ?_⟩
      obtain rfl := (List.mem_replicate.mp henv).2
      exact hwilling)).1 Nat.one_pos (by rw [hclosed]; decide)
  rw [hclosed] at hretries
  refine ⟨hclosed, s', hretries, ?_⟩
  rw [hcomplete.peers_eq]
  decide

end Hack.Webrtc
