import Hack.GoJson
import Hack.Webrtc.Rooms

/-!
# Joining a room

A client opens the signalling websocket of a room and authenticates with its
first message. The room it joins is the rest of the request path, while the room
whose users are searched is named in the message. A client is therefore let into
a room exactly when that room exists and the message carries the credentials of a
user registered for whatever room the message names.
-/

namespace Hack.Webrtc

/-- `RT_REQ_DATA`: the outer form of the first message. -/
structure RtReqData where
  /-- The command, which the authentication ignores. -/
  command : String
  /-- The text of the join request. -/
  data : String
deriving DecidableEq

/-- `PeersJoin`: the credentials of a join request. -/
structure PeersJoin where
  /-- The room whose users are searched. -/
  roomName : String
  /-- The name of the user. -/
  user : String
  /-- The key of the user. -/
  userKey : String
deriving DecidableEq

/-- `ReadJSON` of an `RT_REQ_DATA`. -/
def RtReqData.read (text : String) : Except GoJson.DecodeError RtReqData :=
  (GoJson.decode ["command", "data"] (fun _ => "") text).map fun fields =>
    ⟨fields "command", fields "data"⟩

/-- `json.Unmarshal` of a `PeersJoin`. -/
def PeersJoin.read (text : String) : Except GoJson.DecodeError PeersJoin :=
  (GoJson.unmarshal ["room_name", "user", "user_key"] (fun _ => "") text).map fun fields =>
    ⟨fields "room_name", fields "user", fields "user_key"⟩

/-- What arrives on the websocket before the authentication gives up. -/
inductive AuthInput
  /-- Nothing within `TIMEOUT_SEC`. -/
  | silence
  /-- A read error. -/
  | readError
  /-- A first message. -/
  | message (text : String)

/-- The errors of `roomJoinAuth`. -/
inductive AuthError
  /-- `read auth: timed out`. -/
  | timedOut
  /-- `read auth: marshal: ...`. -/
  | marshal (error : GoJson.DecodeError)
  /-- `failed to get okay: no such room`. -/
  | noSuchRoom
  /-- `no matching user found`. -/
  | noMatchingUser
deriving DecidableEq

/-- How `roomJoinAuth` ends. -/
inductive AuthResult
  /-- `log.Fatal` ends the whole process. -/
  | fatal
  /-- An error is returned. -/
  | rejected (error : AuthError)
  /-- The name of the user is returned. -/
  | accepted (user : String)
deriving DecidableEq

/-- The loop of `roomJoinAuth` over the registered users. -/
def PeersJoin.found (pj : PeersJoin) (users : List PeersUser) : Bool :=
  users.any fun u => u.user = pj.user ∧ u.userKey = pj.userKey

/-- `roomJoinAuth`. -/
def roomJoinAuth (roomReg : GoMap String (List PeersUser)) : AuthInput → AuthResult
  | .silence => .rejected .timedOut
  | .readError => .fatal
  | .message text =>
    match RtReqData.read text with
    | .error _ => .fatal
    | .ok req =>
      match PeersJoin.read req.data with
      | .error error => .rejected (.marshal error)
      | .ok pj =>
        match roomReg.lookup pj.roomName with
        | none => .rejected .noSuchRoom
        | some users => if pj.found users then .accepted pj.user else .rejected .noMatchingUser

/-- The outcomes of the calls `RoomSignalHandler` makes before the peer is listed. -/
structure JoinEnv where
  /-- Whether the request is upgraded to a websocket. -/
  upgrade : Bool
  /-- The websocket of the request. -/
  websocket : ℕ
  /-- The new peer connection, `none` on an error. -/
  newPeerConnection : Option ℕ
  /-- Whether the video and the audio transceiver are added. -/
  addTransceiver : Bool × Bool

/-- How `RoomSignalHandler` gets on until the peer is listed. -/
inductive JoinOutcome
  /-- The websocket upgrade failed. -/
  | upgradeFailed
  /-- The path names no room. -/
  | noSuchRoom
  /-- The process ended during the authentication. -/
  | fatal
  /-- The authentication failed. -/
  | authFailed (error : AuthError)
  /-- The peer connection could not be set up. -/
  | setupFailed
  /-- The peer was listed. -/
  | joined (user : String)
deriving DecidableEq

/-- `strings.TrimPrefix`. -/
def trimPrefix (s start : String) : String :=
  if start.toList.isPrefixOf s.toList then .ofList (s.toList.drop start.length) else s

/-- A new peer connection: it has the receivers of its two transceivers, still
without tracks. -/
def Server.openConnection (s : Server) (c : ℕ) : Server :=
  { s with connections := Function.update s.connections c ⟨.new, [], [none, none]⟩ }

/-- `RoomSignalHandler` up to the point where the peer is listed in its room. -/
def roomSignalHandlerJoin (env : JoinEnv) (peersSignalPath : String) (s : Server)
    (path : String) (input : AuthInput) : Server × JoinOutcome :=
  let roomParam := trimPrefix path peersSignalPath
  if !env.upgrade then (s, .upgradeFailed)
  else if roomParam ∉ s.roomPeerConnections then (s, .noSuchRoom)
  else
    match roomJoinAuth s.roomReg input with
    | .fatal => (s, .fatal)
    | .rejected error => (s, .authFailed error)
    | .accepted user =>
      match env.newPeerConnection, env.addTransceiver with
      | some c, (true, true) =>
        ((s.openConnection c).setPeers roomParam (s.peers roomParam ++ [⟨c, env.websocket⟩]),
          .joined user)
      | _, _ => (s, .setupFailed)

/-- The credentials carried by the first message, when it has the right form. -/
def AuthInput.credentials : AuthInput → Option PeersJoin
  | .silence | .readError => none
  | .message text =>
    (RtReqData.read text).toOption.bind fun req => (PeersJoin.read req.data).toOption

/-- The user name and the key of some credentials are registered for a room. -/
def Server.Registers (s : Server) (room : String) (pj : PeersJoin) : Prop :=
  ⟨pj.userKey, pj.user⟩ ∈ s.users room

/-- The search loop finds exactly the registered pairs. -/
theorem PeersJoin.found_iff {pj : PeersJoin} {users : List PeersUser} :
    pj.found users = true ↔ ⟨pj.userKey, pj.user⟩ ∈ users := by
  simp only [found, List.any_eq_true, decide_eq_true_eq]
  constructor
  · rintro ⟨⟨userKey, user⟩, hmem, rfl, rfl⟩
    exact hmem
  · exact fun hmem => ⟨_, hmem, rfl, rfl⟩

variable {s : Server} {input : AuthInput}

/-- The authentication accepts exactly the credentials registered for the room
they name. -/
theorem roomJoinAuth_eq_accepted_iff {user : String} :
    roomJoinAuth s.roomReg input = .accepted user ↔
      ∃ pj, input.credentials = some pj ∧ pj.user = user ∧ s.Registers pj.roomName pj := by
  cases input with
  | silence => simp [roomJoinAuth, AuthInput.credentials]
  | readError => simp [roomJoinAuth, AuthInput.credentials]
  | message text =>
    simp only [roomJoinAuth, AuthInput.credentials, Server.Registers, Server.users]
    cases hreq : RtReqData.read text with
    | error => simp [Except.toOption]
    | ok req =>
      cases hpj : PeersJoin.read req.data with
      | error => simp [Except.toOption, hpj]
      | ok pj =>
        cases husers : s.roomReg.lookup pj.roomName with
        | none => simp [Except.toOption, hpj, husers]
        | some users =>
          have hregistered : pj.found users = true ↔ _ := PeersJoin.found_iff
          by_cases hfound : pj.found users = true
          · simp [Except.toOption, hpj, husers, hfound, hregistered.mp hfound]
          · simp [Except.toOption, hpj, husers, hfound, mt hregistered.mpr hfound]

/-- A peer is listed exactly when the room exists, the authentication accepts, and
the connection is set up. -/
theorem roomSignalHandlerJoin_lists_iff {env : JoinEnv} {signalPath path : String} :
    let room := trimPrefix path signalPath
    (∃ peer, (roomSignalHandlerJoin env signalPath s path input).1.peers room =
      s.peers room ++ [peer]) ↔ env.upgrade = true ∧ room ∈ s.roomPeerConnections ∧
        (∃ user, roomJoinAuth s.roomReg input = .accepted user) ∧
        env.newPeerConnection.isSome ∧ env.addTransceiver = (true, true) := by
  intro room
  unfold roomSignalHandlerJoin
  cases hupgrade : env.upgrade with
  | false => simp
  | true =>
    by_cases hroom : room ∈ s.roomPeerConnections
    · cases hauth : roomJoinAuth s.roomReg input with
      | fatal => simp [room, hroom]
      | rejected error => simp [room, hroom]
      | accepted user =>
        rcases env.newPeerConnection with - | c
        · simp [room, hroom]
        · rcases env.addTransceiver with ⟨- | -, - | -⟩ <;> simp [room, hroom]
    · simp [room, hroom]

/-- **Room isolation.** For every state of the server, every path and every first
message, only clients registered for the room of the path are listed in it if and
only if the credentials of the message, should they be registered for the room
they name, are also registered for the room of the path, or that room does not
exist. -/
theorem roomSignalHandlerJoin_isolates_iff (signalPath path : String) (s : Server)
    (input : AuthInput) :
    let room := trimPrefix path signalPath
    (∀ env peer, (roomSignalHandlerJoin env signalPath s path input).1.peers room =
        s.peers room ++ [peer] →
      ∃ pj, input.credentials = some pj ∧ s.Registers room pj) ↔
    (room ∈ s.roomPeerConnections → ∀ pj, input.credentials = some pj →
      s.Registers pj.roomName pj → s.Registers room pj) := by
  intro room
  constructor
  · intro hisolated hroom pj hpj hnamed
    -- All calls succeed, so nothing but the authentication can keep the client out.
    let env : JoinEnv := ⟨true, 0, some 0, (true, true)⟩
    have hauth := roomJoinAuth_eq_accepted_iff.mpr ⟨pj, hpj, rfl, hnamed⟩
    have hlisted : ∃ peer, (roomSignalHandlerJoin env signalPath s path input).1.peers room =
        s.peers room ++ [peer] :=
      roomSignalHandlerJoin_lists_iff.mpr ⟨rfl, hroom, ⟨pj.user, hauth⟩, rfl, rfl⟩
    obtain ⟨peer, hpeer⟩ := hlisted
    obtain ⟨pj', hpj', hregistered⟩ := hisolated env peer hpeer
    cases hpj.symm.trans hpj'
    exact hregistered
  · intro hcondition env peer hpeer
    obtain ⟨-, hroom, ⟨user, hauth⟩, -, -⟩ := roomSignalHandlerJoin_lists_iff.mp ⟨peer, hpeer⟩
    obtain ⟨pj, hpj, -, hnamed⟩ := roomJoinAuth_eq_accepted_iff.mp hauth
    exact ⟨pj, hpj, hcondition hroom pj hpj hnamed⟩

/-- Two rooms with one user each. -/
def Server.twoRooms : Server :=
  createPeers (createPeers (.initial fun _ => ⟨.new, [], []⟩) ⟨"a", ["alice"]⟩) ⟨"b", ["eve"]⟩

/-- A user of room `b` connects to the path of room `a` with its own credentials
for room `b` and is listed in room `a`, for which it is not registered. -/
theorem roomSignalHandlerJoin_admits_stranger :
    let input := AuthInput.message ("\x7b\"command\":\"auth\",\"data\":\"\x7b" ++
      "\\\"room_name\\\":\\\"b\\\",\\\"user\\\":\\\"eve\\\",\\\"user_key\\\":\\\"eve\\\"\x7d\"\x7d")
    let joined := roomSignalHandlerJoin ⟨true, 7, some 3, (true, true)⟩ "/signal/" Server.twoRooms
      "/signal/a" input
    joined.1.peers "a" = Server.twoRooms.peers "a" ++ [⟨3, 7⟩] ∧
      ¬∃ pj, input.credentials = some pj ∧ Server.twoRooms.Registers "a" pj := by
  intro input joined
  have hcredentials : input.credentials = some ⟨"b", "eve", "eve"⟩ := by
    decide +kernel
  have hauth : roomJoinAuth Server.twoRooms.roomReg input = .accepted "eve" := by
    refine roomJoinAuth_eq_accepted_iff.mpr ⟨_, hcredentials, rfl, ?_⟩
    unfold Server.Registers
    decide
  refine ⟨?_, ?_⟩
  · have hroom : trimPrefix "/signal/a" "/signal/" = "a" := by decide
    have hexists : "a" ∈ Server.twoRooms.roomPeerConnections := by decide
    simp [joined, roomSignalHandlerJoin, hroom, hexists, hauth]
  rintro ⟨pj, hpj, hregistered⟩
  cases hcredentials.symm.trans hpj
  revert hregistered
  unfold Server.Registers
  decide

end Hack.Webrtc
