import Mathlib.Data.List.AList

/-!
# The rooms of the signalling server

The server keeps four tables: the registered users of each room, the peers that
joined it, the tracks published in it, and the peer connections themselves.
Peers refer to their connection and their websocket by pointer, so the same
connection may be listed more than once. A Go map is an association list with
distinct keys; reading a missing key of a map of slices or maps gives the empty
value, and a nil map differs from an empty one only in the test that replaces
the former by the latter.
-/

namespace Hack.Webrtc

/-- A Go map from `K` to `V`. -/
abbrev GoMap (K V : Type*) := AList fun _ : K => V

/-- An entry of `ROOMREG`: the name and the key of a registered user. -/
structure PeersUser where
  /-- The key the user authenticates with. -/
  userKey : String
  /-- The name of the user. -/
  user : String
deriving DecidableEq

/-- `PeersCreate`: a request to open a room for some users. -/
structure PeersCreate where
  /-- The room to open. -/
  roomName : String
  /-- The users that may join. -/
  users : List String

/-- A published track, registered under its ID. -/
structure TrackLocal where
  /-- The codec of the remote track. -/
  codec : String
  /-- The stream the track belongs to. -/
  streamId : String
deriving DecidableEq

/-- The states of a peer connection. -/
inductive ConnectionState
  | unknown
  | new
  | connecting
  | connected
  | disconnected
  | failed
  | closed
deriving DecidableEq

/-- What the server reads of a peer connection: its state and the track IDs of
its senders and receivers, `none` where `Track()` is nil. -/
structure PeerConnection where
  /-- The connection state. -/
  state : ConnectionState
  /-- The IDs of the tracks sent to the peer. -/
  senders : List (Option String)
  /-- The IDs of the tracks received from the peer. -/
  receivers : List (Option String)
deriving DecidableEq

/-- `peerConnectionState`: the pointers to a peer's connection and websocket. -/
structure PeerConnectionState where
  /-- The peer connection. -/
  peerConnection : ℕ
  /-- The websocket the peer is signalled on. -/
  websocket : ℕ
deriving DecidableEq

/-- `SIGNAL_INFO`: a message on a signalling websocket. -/
structure SignalInfo where
  /-- What the message asks for. -/
  command : String
  /-- The status field, left empty by the server. -/
  status : String
  /-- The payload. -/
  data : String
deriving DecidableEq

/-- The global variables of the server, with the connections its pointers reach
and the messages written to websockets so far. -/
structure Server where
  /-- `ROOMREG`: the registered users of each room. -/
  roomReg : GoMap String (List PeersUser)
  /-- The peers that joined each room, in order. -/
  roomPeerConnections : GoMap String (List PeerConnectionState)
  /-- The tracks published in each room, by ID. -/
  roomTrackLocals : GoMap String (GoMap String TrackLocal)
  /-- The peer connections by pointer. -/
  connections : ℕ → PeerConnection
  /-- The messages written, with the websocket they were written to. -/
  sent : List (ℕ × SignalInfo)

/-- The users registered for a room. -/
def Server.users (s : Server) (k : String) : List PeersUser := (s.roomReg.lookup k).getD []

/-- `roomPeerConnections[k]`. -/
def Server.peers (s : Server) (k : String) : List PeerConnectionState :=
  (s.roomPeerConnections.lookup k).getD []

/-- `roomTrackLocals[k]`. -/
def Server.tracks (s : Server) (k : String) : GoMap String TrackLocal :=
  (s.roomTrackLocals.lookup k).getD ∅

/-- Assigning to `roomPeerConnections[k]`. -/
def Server.setPeers (s : Server) (k : String) (peers : List PeerConnectionState) : Server :=
  { s with roomPeerConnections := s.roomPeerConnections.insert k peers }

/-- The assigned list is read back. -/
@[simp]
theorem Server.peers_setPeers (s : Server) (k : String) (peers : List PeerConnectionState) :
    (s.setPeers k peers).peers k = peers := by
  simp [Server.peers, Server.setPeers]

/-- Other rooms keep their peers. -/
@[simp]
theorem Server.peers_setPeers_of_ne (s : Server) {k room : String} (hne : room ≠ k)
    (peers : List PeerConnectionState) : (s.setPeers k peers).peers room = s.peers room := by
  simp [Server.peers, Server.setPeers, AList.lookup_insert_ne hne]

/-- The server before any room is opened. -/
def Server.initial (connections : ℕ → PeerConnection) : Server :=
  ⟨∅, ∅, ∅, connections, []⟩

/-- `CreatePeers`: register every user with its own name as the key, and start
the room without peers and without tracks. -/
def createPeers (s : Server) (p : PeersCreate) : Server :=
  { s with
    roomReg := s.roomReg.insert p.roomName (p.users.map fun u => ⟨u, u⟩)
    roomPeerConnections := s.roomPeerConnections.insert p.roomName []
    roomTrackLocals := s.roomTrackLocals.insert p.roomName ∅ }

end Hack.Webrtc
