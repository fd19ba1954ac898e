import Hack.EchoResponse
import Mathlib.Algebra.GroupWithZero.Nat
import Mathlib.Data.List.OfFn

/-!
# One round of the epoll servers

The event loop of `main` in `sock-epoll-tcp/server_ep.c` and the one of `Worker` in
`sock-thread-ctx-tcp/worker.c` treat an event in the same way, with copies of the same
handlers. They differ in how many entries of `CLIENT_SOCKET` they look at: the first stops
after the events that `epoll_wait` has reported, the second goes through the whole array
and acts on what earlier rounds have left in it. The kernel is any function of the calls
made so far, so two rounds can be compared before the same kernel.
-/

namespace Hack.Epoll

open EchoResponse

/-- `MAX_CONN`. -/
def maxConn : ℕ := 80

instance : NeZero maxConn := ⟨by decide⟩

/-- `EPOLLIN`. -/
def epollIn : BitVec 32 := 0x001

/-- `EPOLLERR`. -/
def epollErr : BitVec 32 := 0x008

/-- `EPOLLHUP`. -/
def epollHup : BitVec 32 := 0x010

/-- `struct epoll_event`. -/
structure EpollEvent where
  events : BitVec 32
  fd : ℤ
deriving DecidableEq

/-- The first test of the loop. -/
def EpollEvent.failed (ev : EpollEvent) : Bool :=
  ev.events &&& epollErr ≠ 0 || ev.events &&& epollHup ≠ 0 || !(ev.events &&& epollIn ≠ 0)

/-- The branches of the loop. -/
inductive Branch
  /-- The descriptor is closed. -/
  | close
  /-- `handle_conn` is called. -/
  | conn
  /-- `handle_client` is called. -/
  | client
deriving DecidableEq

/-- The branch that is taken for an event. -/
def EpollEvent.branch (ev : EpollEvent) (sockfd : ℤ) : Branch :=
  if ev.failed then .close else if sockfd = ev.fd then .conn else .client

/-- The calls a round makes on descriptors. -/
inductive Op
  | close (fd : ℤ)
  | accept (fd : ℤ)
  | read (fd : ℤ)
deriving DecidableEq

/-- The descriptor of a call. -/
def Op.fd : Op → ℤ
  | .close fd => fd
  | .accept fd => fd
  | .read fd => fd

/-- A client that `accept` returns: whether its socket can be made non-blocking and whether
it can be added to the epoll set. -/
structure Accepted where
  nonblock : Bool
  added : Bool

/-- The kernel, as a function of the calls made so far. -/
structure Kernel where
  /-- The clients that `accept` returns one after the other, until it fails. -/
  accepts : List Op → List Accepted
  /-- What `read` stores, `none` if it fails. -/
  reads : List Op → Option (List UInt8)

/-- How a handler ends. -/
inductive Ending
  | returned
  /-- It has called `exit`. -/
  | exited
  /-- It has written behind the end of `wbuff`. -/
  | overrun
deriving DecidableEq

/-- `handle_conn` and `thandle_conn`: the calls they make, and how they end. -/
def handleConn (sockfd : ℤ) : List Accepted → List Op × Ending
  | [] => ([.accept sockfd], .returned)
  | client :: clients =>
    if client.nonblock && client.added then
      (.accept sockfd :: (handleConn sockfd clients).1, (handleConn sockfd clients).2)
    else ([.accept sockfd], .exited)

/-- `handle_client` and `thandle_client`. After an error and at the end of the input the
greeting is sent, and the socket is closed. -/
def handleClient (fd : ℤ) (result : Option (List UInt8)) : List Op × Ending :=
  if (wbuff (result.getD [])).isNone then ([.read fd], .overrun)
  else if result.getD [] = [] then ([.read fd, .close fd], .returned)
  else ([.read fd], .returned)

/-- What the loop does with one event. -/
def handleEvent (kernel : Kernel) (sockfd : ℤ) (ops : List Op) (ev : EpollEvent) :
    List Op × Ending :=
  match ev.branch sockfd with
  | .close => ([.close ev.fd], .returned)
  | .conn => handleConn sockfd (kernel.accepts ops)
  | .client => handleClient ev.fd (kernel.reads ops)

/-- The loop over the events from one on, after the calls made so far. -/
def handleEvents (kernel : Kernel) (sockfd : ℤ) : List Op → List EpollEvent → List Op
  | _, [] => []
  | ops, ev :: events =>
    let handled := handleEvent kernel sockfd ops ev
    match handled.2 with
    | .returned => handled.1 ++ handleEvents kernel sockfd (ops ++ handled.1) events
    | _ => handled.1

/-- `CLIENT_SOCKET`, of which `epoll_wait` has filled the first entries. -/
abbrev ClientSocket := Fin maxConn → EpollEvent

/-- One round of the loop of `main`, after `epoll_wait` has returned a number. -/
def mainRound (kernel : Kernel) (sockfd n : ℤ) (clientSocket : ClientSocket) : List Op :=
  handleEvents kernel sockfd [] ((List.ofFn clientSocket).take n.toNat)

/-- One round of the loop of `Worker`, which does not use the number. -/
def workerRound (kernel : Kernel) (sockfd _n : ℤ) (clientSocket : ClientSocket) : List Op :=
  handleEvents kernel sockfd [] (List.ofFn clientSocket)

/-- A round acts only on the reported events: what it does is the same for two arrays that
agree on them, and it touches no other descriptor. -/
structure ActsOnReported (round : Kernel → ℤ → ℤ → ClientSocket → List Op) (n : ℤ) : Prop where
  independent : ∀ kernel sockfd clientSocket clientSocket',
    (∀ i : Fin maxConn, (i : ℤ) < n → clientSocket i = clientSocket' i) →
    round kernel sockfd n clientSocket = round kernel sockfd n clientSocket'
  touches : ∀ kernel sockfd clientSocket, ∀ op ∈ round kernel sockfd n clientSocket,
    ∃ i : Fin maxConn, (i : ℤ) < n ∧ op.fd = (clientSocket i).fd

variable {kernel : Kernel} {sockfd n : ℤ} {clientSocket : ClientSocket} {ops : List Op}
  {events : List EpollEvent} {ev : EpollEvent} {op : Op}

/-- `handle_conn` only accepts. -/
theorem mem_handleConn {clients : List Accepted} (hop : op ∈ (handleConn sockfd clients).1) :
    op = .accept sockfd := by
  induction clients with
  | nil => exact List.mem_singleton.mp hop
  | cons client clients ih =>
    rw [handleConn] at hop
    split_ifs at hop
    · rcases List.mem_cons.mp hop with hop | hop
      · exact hop
      · exact ih hop
    · exact List.mem_singleton.mp hop

/-- `handle_client` touches its client only. -/
theorem mem_handleClient {fd : ℤ} {result : Option (List UInt8)}
    (hop : op ∈ (handleClient fd result).1) : op.fd = fd := by
  unfold handleClient at hop
  split_ifs at hop
  · rw [List.mem_singleton.mp hop, Op.fd]
  · rcases List.mem_cons.mp hop with hop | hop
    · rw [hop, Op.fd]
    · rw [List.mem_singleton.mp hop, Op.fd]
  · rw [List.mem_singleton.mp hop, Op.fd]

/-- An event is handled by calls on its descriptor. -/
theorem mem_handleEvent (hop : op ∈ (handleEvent kernel sockfd ops ev).1) : op.fd = ev.fd := by
  unfold handleEvent at hop
  cases hbranch : ev.branch sockfd with
  | close =>
    rw [hbranch] at hop
    rw [List.mem_singleton.mp hop, Op.fd]
  | conn =>
    rw [hbranch] at hop
    have hlistening : sockfd = ev.fd := by
      unfold EpollEvent.branch at hbranch
      split_ifs at hbranch with hfailed hfd
      exact hfd
    rw [mem_handleConn hop, Op.fd, hlistening]
  | client =>
    rw [hbranch] at hop
    exact mem_handleClient hop

/-- The loop only touches the descriptors of the events it looks at. -/
theorem mem_handleEvents (hop : op ∈ handleEvents kernel sockfd ops events) :
    ∃ ev ∈ events, op.fd = ev.fd := by
  induction events generalizing ops with
  | nil => simp [handleEvents] at hop
  | cons ev events ih =>
    have hcases : op ∈ (handleEvent kernel sockfd ops ev).1 ∨
        op ∈ handleEvents kernel sockfd (ops ++ (handleEvent kernel sockfd ops ev).1) events := by
      simp only [handleEvents] at hop
      split at hop
      · exact List.mem_append.mp hop
      · exact .inl hop
    rcases hcases with hfirst | hlater
    · exact ⟨ev, List.mem_cons_self, mem_handleEvent hfirst⟩
    · obtain ⟨ev', hev', hfd⟩ := ih hlater
      exact ⟨ev', List.mem_cons_of_mem _ hev', hfd⟩

/-- Events that fail the first test are all closed. -/
theorem handleEvents_of_failed (hfailed : ∀ ev ∈ events, ev.failed = true) :
    handleEvents kernel sockfd ops events = events.map fun ev => .close ev.fd := by
  induction events generalizing ops with
  | nil => rfl
  | cons ev events ih =>
    obtain ⟨hev, hevents⟩ := List.forall_mem_cons.mp hfailed
    have hhandled : handleEvent kernel sockfd ops ev = ([.close ev.fd], .returned) := by
      rw [handleEvent, EpollEvent.branch, if_pos hev]
    rw [handleEvents, hhandled, ih hevents, List.map_cons, List.singleton_append]

/-- The loop of `main` acts only on the events that were reported. -/
theorem mainRound_actsOnReported (n : ℤ) : ActsOnReported mainRound n := by
  constructor
  · intro kernel sockfd clientSocket clientSocket' hagree
    have htake :
        (List.ofFn clientSocket).take n.toNat = (List.ofFn clientSocket').take n.toNat := by
      refine List.ext_getElem (by simp) fun k hk _ => ?_
      rw [List.length_take, List.length_ofFn] at hk
      rw [List.getElem_take, List.getElem_take, List.getElem_ofFn, List.getElem_ofFn]
      exact hagree ⟨k, by omega⟩ (by simp only; omega)
    rw [mainRound, mainRound, htake]
  · intro kernel sockfd clientSocket op hop
    obtain ⟨ev, hev, hfd⟩ := mem_handleEvents hop
    obtain ⟨k, hk, rfl⟩ := List.mem_iff_getElem.mp hev
    rw [List.length_take, List.length_ofFn] at hk
    rw [List.getElem_take, List.getElem_ofFn] at hfd
    exact ⟨⟨k, by omega⟩, by simp only; omega, hfd⟩

/-- The array after `calloc`, with another descriptor in one entry. -/
def ClientSocket.stale (i : Fin maxConn) (fd : ℤ) : ClientSocket :=
  Function.update (fun _ => ⟨0, 0⟩) i ⟨0, fd⟩

/-- A worker closes every descriptor of such an array. -/
theorem workerRound_stale (kernel : Kernel) (sockfd n : ℤ) (i : Fin maxConn) (fd : ℤ) :
    workerRound kernel sockfd n (.stale i fd) =
      List.ofFn fun j => Op.close (ClientSocket.stale i fd j).fd := by
  have hfailed : ∀ ev ∈ List.ofFn (ClientSocket.stale i fd), ev.failed = true := by
    intro ev hev
    obtain ⟨j, rfl⟩ := List.mem_ofFn.mp hev
    by_cases hj : j = i
    · simp [ClientSocket.stale, hj, EpollEvent.failed]
    · simp [ClientSocket.stale, hj, EpollEvent.failed]
  rw [workerRound, handleEvents_of_failed hfailed, List.map_ofFn]
  rfl

/-- **A worker acts only on reported events exactly when the whole array was reported.** With
fewer events than entries the round depends on what earlier rounds have left in the array,
and touches descriptors that were not reported. -/
theorem workerRound_actsOnReported_iff (n : ℤ) :
    ActsOnReported workerRound n ↔ (maxConn : ℤ) ≤ n := by
  constructor
  · intro h
    by_contra hlt
    -- The first entry that was not reported decides what is closed.
    have hpos : 0 < maxConn := by decide
    have hi : n.toNat < maxConn := by omega
    let i : Fin maxConn := ⟨n.toNat, hi⟩
    have hagree : ∀ j : Fin maxConn, (j : ℤ) < n →
        ClientSocket.stale i 0 j = ClientSocket.stale i 1 j := by
      intro j hj
      have hne : j ≠ i := by
        rintro rfl
        simp only [i] at hj
        omega
      simp [ClientSocket.stale, hne]
    have hsame := h.independent ⟨fun _ => [], fun _ => none⟩ 3 _ _ hagree
    rw [workerRound_stale, workerRound_stale] at hsame
    have hentry := congrFun (List.ofFn_injective hsame) i
    simp [ClientSocket.stale] at hentry
  · intro hle
    constructor
    · intro kernel sockfd clientSocket clientSocket' hagree
      have hsame : clientSocket = clientSocket' := funext fun i => hagree i (by omega)
      rw [hsame]
    · intro kernel sockfd clientSocket op hop
      obtain ⟨ev, hev, hfd⟩ := mem_handleEvents hop
      obtain ⟨i, rfl⟩ := List.mem_ofFn.mp hev
      exact ⟨i, by omega, hfd⟩

/-- One event was reported, of the listening socket. A worker also reads from the descriptor
that an earlier round has left in the next entry, and closes it. -/
theorem workerRound_reads_stale : ∃ (kernel : Kernel) (clientSocket clientSocket' : ClientSocket),
      (∀ i : Fin maxConn, (i : ℤ) < 1 → clientSocket i = clientSocket' i) ∧
      (clientSocket 0).branch 3 = .conn ∧
      Op.read 5 ∈ workerRound kernel 3 1 clientSocket ∧
      Op.read 5 ∉ workerRound kernel 3 1 clientSocket' := by
  refine ⟨⟨fun _ => [], fun _ => none⟩,
    fun i => if i = 0 then ⟨epollIn, 3⟩ else if i = 1 then ⟨epollIn, 5⟩ else ⟨0, 0⟩,
    fun i => if i = 0 then ⟨epollIn, 3⟩ else ⟨0, 0⟩, fun i hi => ?_, by decide,
    by decide +kernel, by decide +kernel⟩
  have hzero : i = 0 := Fin.ext (by simp only [Fin.val_zero]; omega)
  rw [hzero]
  rfl

end Hack.Epoll
