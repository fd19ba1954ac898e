import Hack.Custody
import Hack.Machine
import Mathlib.Data.Int.Notation

/-!
# The io_uring HTTP server

This file embeds `server_loop` of `sock-io-uring-http/main.c` with the functions it calls.
The state is what the loop does not keep in variables: the requests submitted to the ring
and not completed yet, and the client sockets that were accepted and not closed. A step is
the completion of one request, with the result and the bytes the kernel chose for it; the
process ends on a failed request and on a malformed one. A connection lives on through its
requests: each completion has to submit the next one or close the socket, or the socket is
left open with nothing pending.
-/

namespace Hack.Uring

/-- `READ_SZ`. -/
def readSz : ℕ := 8192

/-- `http_200_content`. -/
def http200Content : String :=
  "HTTP/1.0 200 OK\r\nContent-type: text/html\r\n\r\n<html><head><title>Hi</title></head>" ++
  "<body><h1>IO URING</h1><p>Served by io_uring</p></body></html>"

/-- `struct request`: its event type, with the fields that are set for it. -/
inductive Request
  /-- `EVENT_TYPE_ACCEPT`. -/
  | accept
  /-- `EVENT_TYPE_READ`. -/
  | read (clientSocket : ℕ)
  /-- `EVENT_TYPE_WRITE`. -/
  | write (clientSocket : ℕ) (content : String)
deriving DecidableEq

/-- The client socket of a request. -/
def Request.clientSocket? : Request → Option ℕ
  | .accept => none
  | .read sock => some sock
  | .write sock _ => some sock

/-- Requests in flight, and client sockets that are open. -/
structure Server where
  inFlight : List Request
  openSockets : List ℕ

/-- The completion of the request at an index, with `cqe->res` and, for a read, the bytes
that were read. -/
structure Completion where
  index : ℕ
  res : ℤ
  bytes : List UInt8 := []

/-- The buffer of a read request, which was cleared before. -/
def Completion.buffer (c : Completion) : List UInt8 :=
  c.bytes ++ List.replicate (readSz - c.bytes.length) 0

/-- The loop of `get_line` for the remaining indices. -/
def getLineFrom (src : List UInt8) : ℕ → ℕ → Option (List UInt8)
  | 0, _ => none
  | n + 1, i =>
    if src[i]? = some 13 ∧ src[i + 1]? = some 10 then some (src.take i)
    else getLineFrom src n (i + 1)

/-- `get_line`: the bytes before the first line end that begins within the size. -/
def getLine (src : List UInt8) (destSz : ℕ) : Option (List UInt8) := getLineFrom src destSz 0

/-- The first call of `strtok_r` on a line, which ends at its first zero byte. -/
def methodToken (line : List UInt8) : Option (List UInt8) :=
  let rest := (line.takeWhile (· ≠ 0)).dropWhile (· = 32)
  if rest = [] then none else some (rest.takeWhile (· ≠ 32))

/-- `tolower` on one byte. -/
def toLower (byte : UInt8) : UInt8 := if 65 ≤ byte ∧ byte ≤ 90 then byte + 32 else byte

/-- The method is `get`, in any case. -/
def isGet (method : List UInt8) : Bool := method.map toLower = [103, 101, 116]

/-- `handle_http_method`: the requests it submits. Without a token `strtolower` is called
with a null pointer, which is a fault. -/
def handleHttpMethod (line : List UInt8) (sock : ℕ) : Option (List Request) :=
  (methodToken line).map fun method => if isGet method then [.write sock http200Content] else []

/-- `handle_client_request`, which exits on a request without a line end. -/
def handleClientRequest (buffer : List UInt8) (sock : ℕ) : Option (List Request) :=
  (getLine buffer 1024).bind fun line => handleHttpMethod line sock

/-- One round of `server_loop`: the state after a completion was handled, `none` when the
process ends. -/
def Server.complete (s : Server) (c : Completion) : Option Server :=
  if c.res < 0 then none
  else
    let rest := s.inFlight.eraseIdx c.index
    match s.inFlight[c.index]? with
    | none => none
    | some .accept =>
      some ⟨rest ++ [.accept, .read c.res.toNat], s.openSockets ++ [c.res.toNat]⟩
    | some (.read sock) =>
      -- An empty read is reported and nothing else is done about it.
      if c.res = 0 then some { s with inFlight := rest }
      else (handleClientRequest c.buffer sock).map fun requests =>
        { s with inFlight := rest ++ requests }
    | some (.write sock _) => some ⟨rest, s.openSockets.erase sock⟩

/-- `server_loop`, started with one accept request. -/
def serverLoop : Machine Server Completion where
  start s := s = ⟨[.accept], []⟩
  next := Server.complete

/-- What a completion may be: an accept yields a descriptor that is not open, a read as many
bytes as its result says, the results are not negative, and the first line of a request ends
within its first 1024 bytes and has a method. -/
def Completion.Allowed (s : Server) (c : Completion) : Prop :=
  0 ≤ c.res ∧ match s.inFlight[c.index]? with
    | none => False
    | some .accept => c.res.toNat ∉ s.openSockets
    | some (.read _) => c.bytes.length = c.res ∧ c.bytes.length ≤ readSz ∧
        (c.res = 0 ∨ ((getLine c.buffer 1024).bind methodToken).isSome)
    | some (.write _ _) => True

/-- The condition on a completion: a read yields a request whose method is `get`. -/
def Completion.Answered (s : Server) (c : Completion) : Prop :=
  ∀ sock, s.inFlight[c.index]? = some (.read sock) →
    c.res ≠ 0 ∧ (((getLine c.buffer 1024).bind methodToken).map isGet).getD false = true

variable {s s' : Server} {c : Completion}

/-- What a completion does: the completed request, and the state after it. -/
inductive Server.Handled (s : Server) (c : Completion) : Request → Server → Prop
  | accept : Handled s c .accept
      ⟨s.inFlight.eraseIdx c.index ++ [.accept, .read c.res.toNat], s.openSockets ++ [c.res.toNat]⟩
  | emptyRead {sock} : c.res = 0 → Handled s c (.read sock)
      { s with inFlight := s.inFlight.eraseIdx c.index }
  | get {sock method} : c.res ≠ 0 → (getLine c.buffer 1024).bind methodToken = some method →
      isGet method = true → Handled s c (.read sock)
        { s with inFlight := s.inFlight.eraseIdx c.index ++ [.write sock http200Content] }
  | otherMethod {sock method} : c.res ≠ 0 →
      (getLine c.buffer 1024).bind methodToken = some method → isGet method = false →
      Handled s c (.read sock) { s with inFlight := s.inFlight.eraseIdx c.index }
  | write {sock content} : Handled s c (.write sock content)
      ⟨s.inFlight.eraseIdx c.index, s.openSockets.erase sock⟩

/-- The requests submitted for a client request with a method. -/
theorem handleClientRequest_eq (buffer : List UInt8) (sock : ℕ) :
    handleClientRequest buffer sock = ((getLine buffer 1024).bind methodToken).map fun method =>
      if isGet method then [.write sock http200Content] else [] := by
  unfold handleClientRequest handleHttpMethod
  cases getLine buffer 1024 <;> rfl

/-- Every round of the loop handles the completion of a request in flight. -/
theorem Server.handled_of_complete (hcomplete : s.complete c = some s') :
    ∃ req, s.inFlight[c.index]? = some req ∧ s.Handled c req s' := by
  have hres : ¬c.res < 0 := fun hneg => by simp [Server.complete, hneg] at hcomplete
  simp only [Server.complete, if_neg hres] at hcomplete
  cases hreq : s.inFlight[c.index]? with
  | none => simp [hreq] at hcomplete
  | some req =>
    refine ⟨req, rfl, ?_⟩
    cases req with
    | accept =>
      simp only [hreq, Option.some_inj] at hcomplete
      subst hcomplete
      exact .accept
    | read sock =>
      simp only [hreq] at hcomplete
      split_ifs at hcomplete with hres
      · cases hcomplete
        exact .emptyRead hres
      · rw [handleClientRequest_eq, Option.map_map] at hcomplete
        obtain ⟨method, hmethod, rfl⟩ := Option.map_eq_some_iff.mp hcomplete
        cases hget : isGet method with
        | true => simpa [hget] using Handled.get (s := s) (c := c) hres hmethod hget
        | false => simpa [hget] using Handled.otherMethod (s := s) (c := c) hres hmethod hget
    | write sock content =>
      simp only [hreq, Option.some_inj] at hcomplete
      subst hcomplete
      exact .write

/-- One accept is in flight, and one request for each open socket. -/
structure Server.OnePending (s : Server) : Prop where
  accept : s.inFlight.count .accept = 1
  sockets : (s.inFlight.filterMap Request.clientSocket?).Perm s.openSockets
  distinct : s.openSockets.Nodup

/-- A completion whose request is followed by another one, or by the end of its connection,
keeps one request for each open socket. -/
theorem Server.OnePending.complete (h : s.OnePending) (hallowed : c.Allowed s)
    (hanswered : c.Answered s) (hcomplete : s.complete c = some s') : s'.OnePending := by
  obtain ⟨req, hreq, hhandled⟩ := Server.handled_of_complete hcomplete
  have hperm := Custody.perm_cons_eraseIdx hreq
  have haccept := h.accept
  have hsockets := (hperm.filterMap Request.clientSocket?).symm.trans h.sockets
  rw [hperm.count_eq] at haccept
  cases hhandled with
  | accept =>
    have hnew : c.res.toNat ∉ s.openSockets := by
      simpa [Completion.Allowed, hreq] using hallowed.2
    refine ⟨?_, ?_, ?_⟩
    · simpa using haccept
    · rw [List.filterMap_cons_none rfl] at hsockets
      rw [List.filterMap_append]
      exact hsockets.append_right [c.res.toNat]
    · simpa [List.nodup_append] using ⟨h.distinct, fun a ha heq => hnew (heq ▸ ha)⟩
  | emptyRead hres => exact absurd hres (hanswered _ hreq).1
  | get =>
    refine ⟨?_, ?_, h.distinct⟩
    · simpa using haccept
    · rw [List.filterMap_append]
      exact (List.perm_append_singleton _ _).trans hsockets
  | otherMethod _ hmethod hget =>
    have hanswer := (hanswered _ hreq).2
    simp [hmethod, hget] at hanswer
  | @write sock content =>
    refine ⟨?_, ?_, h.distinct.erase sock⟩
    · simpa using haccept
    · have hrest : (sock :: (s.inFlight.eraseIdx c.index).filterMap Request.clientSocket?).Perm
          s.openSockets := hsockets
      simpa using hrest.erase sock

/-- **One request for each client.** In every state reached by completions in which every read
yields a request whose method is `get`, one accept request is in flight, and for each client
socket that was accepted and not closed one read or write request. -/
theorem one_request_in_flight
    (hreach : serverLoop.ReachableUnder (fun s c => c.Allowed s ∧ c.Answered s) s) :
    s.inFlight.count .accept = 1 ∧ ∀ sock ∈ s.openSockets,
        s.inFlight.countP (fun req => req.clientSocket? = some sock) = 1 := by
  have hinv : s.OnePending := by
    refine hreach.invariant Server.OnePending ?_ ?_
    · rintro s rfl
      exact ⟨rfl, .nil, List.nodup_nil⟩
    · rintro s c s' h ⟨hallowed, hanswered⟩ hcomplete
      exact h.complete hallowed hanswered hcomplete
  refine ⟨hinv.accept, fun sock hsock => ?_⟩
  have hcount : (s.inFlight.filterMap Request.clientSocket?).count sock =
      s.inFlight.countP fun req => req.clientSocket? = some sock := by
    rw [List.count_filterMap]
    exact List.countP_congr fun req _ => by simp
  rw [← hcount, hinv.sockets.count_eq]
  exact List.count_eq_one_of_mem hinv.distinct hsock

/-- A first client is accepted, as socket 5. -/
theorem reachable_accept {condition : Server → Completion → Prop}
    (hcondition : condition ⟨[.accept], []⟩ ⟨0, 5, []⟩) :
    serverLoop.ReachableUnder condition ⟨[.accept, .read 5], [5]⟩ :=
  .next (.start rfl) hcondition rfl

/-- The first accept may yield any descriptor. -/
theorem allowed_first_accept : Completion.Allowed ⟨[.accept], []⟩ ⟨0, 5, []⟩ := by
  simp [Completion.Allowed]

/-- The read of the bytes of `GET /` with a line end. -/
def Completion.getRead : Completion := ⟨1, 7, [71, 69, 84, 32, 47, 13, 10]⟩

/-- The read of the bytes of `PUT /` with a line end. -/
def Completion.putRead : Completion := ⟨1, 7, [80, 85, 84, 32, 47, 13, 10]⟩

/-- A client that sent a `GET` has its write in flight. -/
theorem one_request_in_flight_get :
    ∃ s, serverLoop.ReachableUnder (fun s c => c.Allowed s ∧ c.Answered s) s ∧
      s.inFlight = [.accept, .write 5 http200Content] ∧ s.openSockets = [5] ∧
      s.inFlight.count .accept = 1 ∧
      ∀ sock ∈ s.openSockets, s.inFlight.countP (fun req => req.clientSocket? = some sock) = 1 := by
  have hmethod : (getLine Completion.getRead.buffer 1024).bind methodToken =
      some [71, 69, 84] := rfl
  have haccept : serverLoop.ReachableUnder (fun s c => c.Allowed s ∧ c.Answered s)
      ⟨[.accept, .read 5], [5]⟩ :=
    reachable_accept ⟨allowed_first_accept, fun sock h => by cases h⟩
  have hallowed : Completion.getRead.Allowed ⟨[.accept, .read 5], [5]⟩ :=
    ⟨by decide, rfl, by decide, .inr (by rw [hmethod]; rfl)⟩
  have hanswered : Completion.getRead.Answered ⟨[.accept, .read 5], [5]⟩ :=
    fun _ _ => ⟨by decide, by rw [hmethod]; rfl⟩
  have hget : serverLoop.ReachableUnder (fun s c => c.Allowed s ∧ c.Answered s)
      ⟨[.accept, .write 5 http200Content], [5]⟩ := .next haccept ⟨hallowed, hanswered⟩ rfl
  exact ⟨_, hget, rfl, rfl, one_request_in_flight hget⟩

/-- After an empty read, and after a request whose method is not `get`, the socket of the
client is open and no request for it is in flight. -/
theorem socket_left_without_request :
    (∃ s, Server.complete ⟨[.accept, .read 5], [5]⟩ ⟨1, 0, []⟩ = some s ∧
      serverLoop.ReachableUnder (fun s c => c.Allowed s) s ∧
      s.openSockets = [5] ∧ s.inFlight = [.accept]) ∧
    ∃ s, Server.complete ⟨[.accept, .read 5], [5]⟩ .putRead = some s ∧
      serverLoop.ReachableUnder (fun s c => c.Allowed s) s ∧
      s.openSockets = [5] ∧ s.inFlight = [.accept] := by
  have hmethod : (getLine Completion.putRead.buffer 1024).bind methodToken =
      some [80, 85, 84] := rfl
  have haccept : serverLoop.ReachableUnder (fun s c => c.Allowed s) ⟨[.accept, .read 5], [5]⟩ :=
    reachable_accept allowed_first_accept
  have hempty : Completion.Allowed ⟨[.accept, .read 5], [5]⟩ ⟨1, 0, []⟩ :=
    ⟨by decide, rfl, by decide, .inl rfl⟩
  have hput : Completion.putRead.Allowed ⟨[.accept, .read 5], [5]⟩ :=
    ⟨by decide, rfl, by decide, .inr (by rw [hmethod]; rfl)⟩
  exact ⟨⟨⟨[.accept], [5]⟩, rfl, .next haccept hempty rfl, rfl, rfl⟩,
    ⟨[.accept], [5]⟩, rfl, .next haccept hput rfl, rfl, rfl⟩

end Hack.Uring
