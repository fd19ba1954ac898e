import Hack.Webrtc.Rooms
import Mathlib.Data.Int.Init
import Mathlib.Data.List.InsertIdx

/-!
# Signalling rounds

A signalling round brings the senders of every peer of a room in line with the
tracks published in it. One attempt walks over the peers and gives up at the
first closed peer, which it removes, and at the first failing call; the round
repeats attempts until one of them reaches the end. The outcome of every call
into the WebRTC library and the iteration order of the track map are chosen by
an environment, one for each peer position of each attempt. A failing call
changes nothing, a successful `RemoveTrack` clears the track of its sender, and
a successful `AddTrack` lists one more sender at any position.
-/

namespace Hack.Webrtc

/-- What the library and the map iteration do while one peer is synchronised. -/
structure PeerEnv where
  /-- Whether `RemoveTrack` succeeds on the sender at an index. -/
  removeTrack : ℕ → Bool
  /-- The order in which a range over a map visits its keys. -/
  rangeOrder : List String → List String
  /-- A range visits every key once. -/
  rangeOrder_perm : ∀ keys, (rangeOrder keys).Perm keys
  /-- The position at which `AddTrack` lists its new sender, `none` on an error. -/
  addTrack : String → Option ℕ
  /-- The encoded offer of `CreateOffer`, `none` on an error. -/
  createOffer : Option String
  /-- Whether `SetLocalDescription` succeeds. -/
  setLocalDescription : Bool
  /-- Whether `WriteJSON` succeeds. -/
  writeJSON : Bool

/-- The loop over `GetSenders`: every sender of a track that is not published is
removed. The flag is false when a removal failed and the loop was left. -/
def removeStale (env : PeerEnv) (tracks : GoMap String TrackLocal) :
    ℕ → List (Option String) → List (Option String) × Bool
  | _, [] => ([], true)
  | i, none :: senders =>
    let r := removeStale env tracks (i + 1) senders
    (none :: r.1, r.2)
  | i, some id :: senders =>
    if id ∈ tracks then
      let r := removeStale env tracks (i + 1) senders
      (some id :: r.1, r.2)
    else if env.removeTrack i then
      let r := removeStale env tracks (i + 1) senders
      (none :: r.1, r.2)
    else (some id :: senders, false)

/-- The loop over the published tracks: every track whose ID is not in
`existingSenders` is added. The flag is false when an addition failed. -/
def addMissing (env : PeerEnv) (existingSenders : List String) :
    List String → List (Option String) → List (Option String) × Bool
  | [], senders => (senders, true)
  | id :: ids, senders =>
    if id ∈ existingSenders then addMissing env existingSenders ids senders
    else
      match env.addTrack id with
      | none => (senders, false)
      | some i =>
        addMissing env existingSenders ids (senders.insertIdx (min i senders.length) (some id))

/-- The offer that ends the work on one peer, `none` when one of its calls fails. -/
def PeerEnv.sendOffer (env : PeerEnv) : Option SignalInfo := do
  let offer ← env.createOffer
  guard env.setLocalDescription
  guard env.writeJSON
  return ⟨"offer", "", offer⟩

/-- The IDs of the tracks a peer sends or receives before it is synchronised. -/
def PeerConnection.existingSenders (pc : PeerConnection) : List String :=
  (pc.senders ++ pc.receivers).filterMap id

/-- The body of the loop of `attemptSync` for a connection that is not closed,
with the message written at its end or `none` when it was left early. -/
def syncPeer (env : PeerEnv) (tracks : GoMap String TrackLocal) (pc : PeerConnection) :
    PeerConnection × Option SignalInfo :=
  let kept := removeStale env tracks 0 pc.senders
  if kept.2 then
    let added := addMissing env pc.existingSenders (env.rangeOrder tracks.keys) kept.1
    ({ pc with senders := added.1 }, if added.2 then env.sendOffer else none)
  else ({ pc with senders := kept.1 }, none)

/-- The loop of `attemptSync` from a peer position on. -/
def Server.attemptFrom (env : ℕ → PeerEnv) (k : String) :
    Server → ℕ → List PeerConnectionState → Server × Bool
  | s, _, [] => (s, false)
  | s, i, peer :: rest =>
    let pc := s.connections peer.peerConnection
    if pc.state = .closed then (s.setPeers k ((s.peers k).eraseIdx i), true)
    else
      let synced := syncPeer (env i) (s.tracks k) pc
      let connections := Function.update s.connections peer.peerConnection synced.1
      match synced.2 with
      | none => ({ s with connections }, true)
      | some message =>
        Server.attemptFrom env k
          { s with connections, sent := s.sent ++ [(peer.websocket, message)] } (i + 1) rest

/-- `attemptSync`: true when the attempt has to be repeated. -/
def attemptSync (env : ℕ → PeerEnv) (s : Server) (k : String) : Server × Bool :=
  s.attemptFrom env k 0 (s.peers k)

/-- How a call of `signalPeerConnections` ends. -/
inductive SignalOutcome
  /-- An attempt returned false. -/
  | synced
  /-- The attempts ran out, and the call is repeated after three seconds. -/
  | postponed
  /-- The given environments did not suffice to end the call. -/
  | running
deriving DecidableEq

/-- The loop of `signalPeerConnections` with its attempt counter, the attempts
taking their environments from a list. -/
def Server.signalFrom (attemptLimit : Int64) (k : String) :
    List (ℕ → PeerEnv) → Int64 → Server → Server × SignalOutcome
  | [], syncAttempt, s => (s, if syncAttempt = attemptLimit then .postponed else .running)
  | env :: envs, syncAttempt, s =>
    if syncAttempt = attemptLimit then (s, .postponed)
    else
      let attempt := attemptSync env s k
      if attempt.2 then Server.signalFrom attemptLimit k envs (syncAttempt + 1) attempt.1
      else (attempt.1, .synced)

/-- `signalPeerConnections` with the constant `PEER_SIGNAL_ATTEMPT_SYNC`. The key
frame requests sent afterwards change nothing the server reads. -/
def signalPeerConnections (attemptLimit : Int64) (envs : List (ℕ → PeerEnv)) (s : Server)
    (k : String) : Server × SignalOutcome :=
  s.signalFrom attemptLimit k envs 0

end Hack.Webrtc
