import Hack.GoJson
import Hack.Machine
import Hack.Webrtc.Rooms

/-!
# The messages of a signalling connection

This file embeds the message loop of `RoomSignalHandler` in `0xgo/webrtc/webrtc/peers.go`. The
struct that a message is decoded into is made once, before the loop. Decoding leaves the fields
that a message does not set, and a chat message writes its own reply into the struct, so what a
message does can depend on the ones before it.
-/

namespace Hack.Webrtc

open GoJson

/-- `ChatMessage`. -/
structure ChatMessage where
  user : String
  message : String
deriving DecidableEq

/-- The struct before the first message. -/
def SignalInfo.empty : SignalInfo := ⟨"", "", ""⟩

/-- The names of the fields in JSON. -/
def SignalInfo.names : List String := ["command", "status", "data"]

/-- A field by its name in JSON. -/
def SignalInfo.field (message : SignalInfo) (name : String) : String :=
  if name = "command" then message.command
  else if name = "status" then message.status
  else message.data

/-- `json.Unmarshal` of a message into the struct. The handler ends on an error, and on `null`,
which makes the pointer to the struct `nil`. -/
def SignalInfo.read (message : SignalInfo) (text : String) : Option SignalInfo :=
  match parse text with
  | none => none
  | some .null => none
  | some v =>
    match assign SignalInfo.names message.field v with
    | .error _ => none
    | .ok fields => some ⟨fields "command", fields "status", fields "data"⟩

/-- What `html.EscapeString` makes of a character. -/
def escapeHtml (c : Char) : List Char :=
  if c = '&' then "&amp;".toList
  else if c = '\'' then "&#39;".toList
  else if c = '<' then "&lt;".toList
  else if c = '>' then "&gt;".toList
  else if c = '"' then "&#34;".toList
  else [c]

/-- `html.EscapeString`. -/
def escapeString (s : String) : String := .ofList (s.toList.flatMap escapeHtml)

/-- The command that is executed for a message, with the data that is used for it. -/
inductive Effect
  /-- The data is decoded and added as a candidate. -/
  | candidate (data : String)
  /-- The data is decoded and set as the remote description. -/
  | answer (data : String)
  /-- The data becomes a chat message in the struct, which is sent to all peers of the room. -/
  | chat (data : String) (sent : SignalInfo)
  /-- No branch is taken. -/
  | other (command : String)
deriving DecidableEq

/-- The effect needs the peer connection, which may fail. -/
def Effect.needsPeer : Effect → Bool
  | .candidate _ => true
  | .answer _ => true
  | .chat _ _ => false
  | .other _ => false

/-- The switch over the command, with the struct after it. The user of the connection and
`json.Marshal` of a chat message are given. -/
def SignalInfo.handle (marshal : ChatMessage → String) (thisUser : String) (message : SignalInfo) :
    SignalInfo × Effect :=
  if message.command = "candidate" then (message, .candidate message.data)
  else if message.command = "answer" then (message, .answer message.data)
  else if message.command = "chat" then
    let sent := { message with data := marshal ⟨thisUser, escapeString message.data⟩ }
    (sent, .chat message.data sent)
  else (message, .other message.command)

/-- A message, and whether the peer connection takes what it is given for it. -/
structure Incoming where
  text : String
  taken : Bool

variable (marshal : ChatMessage → String) (thisUser : String)

/-- The loop of the handler. A step that ends the handler cannot be taken. -/
def signalling : Machine SignalInfo Incoming where
  start message := message = .empty
  next message incoming :=
    (message.read incoming.text).bind fun message =>
      let (message, effect) := message.handle marshal thisUser
      if effect.needsPeer ∧ !incoming.taken then none else some message

/-- What is executed for a message, `none` if the handler ends on it. -/
def SignalInfo.executes (message : SignalInfo) (text : String) : Option Effect :=
  (message.read text).map fun message => (message.handle marshal thisUser).2

/-- The members of a message that cannot be decoded, or that set the command and whatever its
branch uses: the data, and for a chat also the status, which is sent along. -/
def Independent (members : List (String × Value)) : Prop :=
  Decodes SignalInfo.names members →
    ∃ command, lastString SignalInfo.names "command" members = some command ∧
      (command = "candidate" ∨ command = "answer" ∨ command = "chat" →
        (lastString SignalInfo.names "data" members).isSome) ∧
      (command = "chat" → (lastString SignalInfo.names "status" members).isSome)

variable {marshal thisUser} {message : SignalInfo} {text : String}
  {members : List (String × Value)}

/-- The fields of the struct after a message: those it sets, and the others as they were. -/
def SignalInfo.set (message : SignalInfo) (members : List (String × Value)) : SignalInfo :=
  ⟨(lastString SignalInfo.names "command" members).getD message.command,
    (lastString SignalInfo.names "status" members).getD message.status,
    (lastString SignalInfo.names "data" members).getD message.data⟩

/-- Reading an object that can be decoded. -/
theorem read_of_decodes (hobject : parse text = some (.object members))
    (hdecodes : Decodes SignalInfo.names members) (message : SignalInfo) :
    message.read text = some (message.set members) := by
  simp only [SignalInfo.read, hobject, assign, assignMembers_of_decodes hdecodes]
  rfl

/-- Reading an object that cannot be decoded. -/
theorem read_of_not_decodes (hobject : parse text = some (.object members))
    (hdecodes : ¬Decodes SignalInfo.names members) (message : SignalInfo) :
    message.read text = none := by
  obtain ⟨error, herror⟩ := assignMembers_of_not_decodes hdecodes message.field
  simp only [SignalInfo.read, hobject, assign, herror]

/-- A message that sets all fields and whose command has no branch. -/
def seen : String := "\x7b\"command\":\"x\",\"status\":\"s\",\"data\":\"d\"\x7d"

/-- That message leaves all its fields in the struct. -/
theorem run_seen :
    (signalling marshal thisUser).run .empty [⟨seen, true⟩] = some ⟨"x", "s", "d"⟩ := by
  have hread : SignalInfo.empty.read seen = some ⟨"x", "s", "d"⟩ := by decide +kernel
  simp [Machine.run, signalling, hread, SignalInfo.handle, Effect.needsPeer]

section Object

variable (hobject : parse text = some (.object members))
include hobject

/-- What is executed for an object that can be decoded. -/
theorem executes_of_decodes (hdecodes : Decodes SignalInfo.names members) (message : SignalInfo) :
    message.executes marshal thisUser text =
      some ((message.set members).handle marshal thisUser).2 := by
  rw [SignalInfo.executes, read_of_decodes hobject hdecodes, Option.map_some]

/-- A message that sets what its branch uses does the same whatever the struct held. -/
theorem executes_eq_of_independent (hindependent : Independent members)
    (message message' : SignalInfo) :
    message.executes marshal thisUser text = message'.executes marshal thisUser text := by
  by_cases hdecodes : Decodes SignalInfo.names members
  · obtain ⟨command, hcommand, hdata, hstatus⟩ := hindependent hdecodes
    rw [executes_of_decodes hobject hdecodes, executes_of_decodes hobject hdecodes]
    simp only [SignalInfo.handle, SignalInfo.set, hcommand, Option.getD_some]
    split_ifs with hcandidate hanswer hchat
    · obtain ⟨data, hdata⟩ := Option.isSome_iff_exists.mp (hdata (.inl hcandidate))
      simp [hdata]
    · obtain ⟨data, hdata⟩ := Option.isSome_iff_exists.mp (hdata (.inr (.inl hanswer)))
      simp [hdata]
    · obtain ⟨data, hdata⟩ := Option.isSome_iff_exists.mp (hdata (.inr (.inr hchat)))
      obtain ⟨status, hstatus⟩ := Option.isSome_iff_exists.mp (hstatus hchat)
      simp [hdata, hstatus]
    · rfl
  · rw [SignalInfo.executes, SignalInfo.executes, read_of_not_decodes hobject hdecodes,
      read_of_not_decodes hobject hdecodes]

/-- A message that does the same to an empty struct and to one with other fields sets what its
branch uses. -/
theorem independent_of_executes_eq
    (heq : SignalInfo.empty.executes marshal thisUser text =
      SignalInfo.executes marshal thisUser ⟨"x", "s", "d"⟩ text) : Independent members := by
  intro hdecodes
  rw [executes_of_decodes hobject hdecodes, executes_of_decodes hobject hdecodes,
    Option.some_inj] at heq
  cases hcommand : lastString SignalInfo.names "command" members with
  | none =>
    -- The command would be empty or `x`.
    simp [SignalInfo.handle, SignalInfo.set, hcommand, SignalInfo.empty] at heq
  | some command =>
    simp only [SignalInfo.handle, SignalInfo.set, hcommand, Option.getD_some] at heq
    refine ⟨command, rfl, fun hused => ?_, fun hchat => ?_⟩
    · by_contra hdata
      rw [Option.not_isSome_iff_eq_none] at hdata
      rcases hused with rfl | rfl | rfl <;> simp [hdata, SignalInfo.empty] at heq
    · by_contra hstatus
      rw [Option.not_isSome_iff_eq_none] at hstatus
      subst hchat
      simp [hstatus, SignalInfo.empty] at heq

end Object

/-- After any two histories of messages, an object that comes next has the same command executed
with the same data, exactly when it cannot be decoded or sets what its branch uses. -/
theorem messages_do_not_leak_iff (hobject : parse text = some (.object members)) :
    (∀ history history' message message',
      (signalling marshal thisUser).run .empty history = some message →
      (signalling marshal thisUser).run .empty history' = some message' →
        message.executes marshal thisUser text = message'.executes marshal thisUser text) ↔
      Independent members := by
  constructor
  · intro hsame
    exact independent_of_executes_eq hobject (hsame [] [⟨seen, true⟩] _ _ rfl run_seen)
  · intro hindependent history history' message message' _ _
    exact executes_eq_of_independent hobject hindependent message message'

/-- A chat message that sets all fields. -/
def greeting : String := "\x7b\"command\":\"chat\",\"status\":\"\",\"data\":\"hi\"\x7d"

/-- Such a message does the same at the beginning and after another one. -/
theorem messages_do_not_leak_iff_greeting :
    SignalInfo.empty.executes ChatMessage.message "ann" greeting =
      SignalInfo.executes ChatMessage.message "ann" ⟨"x", "s", "d"⟩ greeting := by
  have hobject : parse greeting = some (.object
      [("command", .string "chat"), ("status", .string ""), ("data", .string "hi")]) := by rfl
  refine (messages_do_not_leak_iff hobject).mpr (fun _ => ⟨"chat", ?_, fun _ => ?_, fun _ => ?_⟩)
    [] [⟨seen, true⟩] _ _ rfl run_seen
  · decide
  · decide
  · decide

/-- A chat message without data sends the data of the message before it to the room. -/
theorem chat_leaks_data :
    parse "\x7b\"command\":\"chat\"\x7d" = some (.object [("command", .string "chat")]) ∧
      (signalling ChatMessage.message "ann").run .empty [⟨seen, true⟩] = some ⟨"x", "s", "d"⟩ ∧
      SignalInfo.empty.executes ChatMessage.message "ann" "\x7b\"command\":\"chat\"\x7d" =
        some (.chat "" ⟨"chat", "", ""⟩) ∧
      SignalInfo.executes ChatMessage.message "ann" ⟨"x", "s", "d"⟩
        "\x7b\"command\":\"chat\"\x7d" = some (.chat "d" ⟨"chat", "s", "d"⟩) := by
  refine ⟨by rfl, run_seen, ?_, ?_⟩
  · decide +kernel
  · decide +kernel

end Hack.Webrtc
