import Hack.Custody
import Hack.EchoReply
import Hack.Machine

/-!
# The connection table of the select server

This file embeds the loop of `main` and the function `comm` of `sock-select-tcp/server_s.c`.
A round of the loop waits in `select`, accepts a client if there is one and puts it into the
first free entry of a table, and then reads from every entry that has input. A client for
which there is no entry is closed again, and the result of `close` is tested the wrong way
round: the server exits when the call has succeeded.
-/

namespace Hack.SelectTcp

open EchoResponse

/-- `MAX_CONN`. -/
def maxConn : ℕ := 80

/-- What has become of the process. -/
inductive Status
  | running
  /-- It has called `exit`. -/
  | exited
  /-- It has written behind the end of `wbuff`. -/
  | overrun
deriving DecidableEq

/-- The variables of the server, and the client sockets the kernel holds open for it. -/
structure Server where
  sockfd : ℤ
  clientSocket : List ℤ
  sockAdded : Bool
  openSockets : List ℤ
  status : Status
deriving DecidableEq

/-- What the kernel answers in one round. -/
structure Round where
  /-- The descriptors `select` leaves in the set, `none` if it fails. -/
  ready : Option (List ℤ)
  /-- What `accept` returns, if it is called. -/
  newSocket : ℤ
  /-- What `make_socket_non_blocking` returns for the new socket. -/
  nonblockResult : ℤ := 0
  /-- What `close` returns for a refused socket. -/
  closeResult : ℤ := 0
  /-- What `read` stores for an entry of the table, `none` if it fails. -/
  read : ℕ → Option (List UInt8) := fun _ => none

/-- The server before its first round. -/
def Server.initial (sockfd : ℤ) : Server where
  sockfd := sockfd
  clientSocket := List.replicate maxConn 0
  sockAdded := false
  openSockets := []
  status := .running

/-- `readfds` after `select`: it leaves a part of the set, and the whole set when it fails. -/
def Server.readfds (s : Server) (r : Round) : List ℤ :=
  let watched := s.sockfd :: s.clientSocket.filter (0 < ·)
  match r.ready with
  | none => watched
  | some ready => watched.filter (· ∈ ready)

/-- The loop of `comm` over the entries from an index on: the entries and the open sockets
after it, `none` when a response overruns its buffer. -/
def commFrom (readfds : List ℤ) (read : ℕ → Option (List UInt8)) :
    ℕ → List ℤ → List ℤ → Option (List ℤ × List ℤ)
  | _, [], openSockets => some ([], openSockets)
  | i, sd :: entries, openSockets =>
    if sd ∈ readfds then
      match read i with
      | some [] =>
        (commFrom readfds read (i + 1) entries (openSockets.erase sd)).map fun r => (0 :: r.1, r.2)
      | result =>
        -- After an error the buffer is empty, and the greeting is sent all the same.
        (wbuff (result.getD [])).bind fun _ =>
          (commFrom readfds read (i + 1) entries openSockets).map fun r => (sd :: r.1, r.2)
    else (commFrom readfds read (i + 1) entries openSockets).map fun r => (sd :: r.1, r.2)

/-- `comm`. -/
def Server.comm (s : Server) (readfds : List ℤ) (read : ℕ → Option (List UInt8)) : Server :=
  match commFrom readfds read 0 s.clientSocket s.openSockets with
  | none => { s with status := .overrun }
  | some (clientSocket, openSockets) => { s with clientSocket, openSockets }

/-- The loop that looks for a free entry. -/
def Server.place (s : Server) (newSocket : ℤ) : Server :=
  match s.clientSocket.findIdx? (· = 0) with
  | none => s
  | some i => { s with clientSocket := s.clientSocket.set i newSocket, sockAdded := true }

/-- An accepted client gets an entry of the table, or its socket is closed. -/
def Server.seat (s : Server) (newSocket closeResult : ℤ) : Server :=
  let s := s.place newSocket
  if s.sockAdded then { s with sockAdded := false }
  else
    let s := { s with openSockets := s.openSockets.erase newSocket }
    -- A result other than zero, which is a failure, is taken for success.
    if closeResult ≠ 0 then s else { s with status := .exited }

/-- The state after `accept` returned a client. -/
def Server.accepted (s : Server) (newSocket : ℤ) : Server :=
  { s with openSockets := s.openSockets ++ [newSocket] }

/-- One round of the loop. -/
def Server.round (s : Server) (r : Round) : Option Server :=
  if s.status ≠ .running then none
  else if s.sockfd ∈ s.readfds r then
    if r.newSocket < 0 then some { s with status := .exited }
    else
      let accepted := s.accepted r.newSocket
      if r.nonblockResult < 0 then some accepted
      else
        let admitted := accepted.seat r.newSocket r.closeResult
        if admitted.status = .running then some (admitted.comm (s.readfds r) r.read)
        else some admitted
  else some (s.comm (s.readfds r) r.read)

/-- The server as a machine. Descriptor zero is in use when it starts. -/
def server : Machine Server Round where
  start s := ∃ sockfd, 0 < sockfd ∧ s = .initial sockfd
  next := Server.round

/-- A connection arrives in a round. -/
def Round.Connects (s : Server) (r : Round) : Prop := s.sockfd ∈ s.readfds r

instance (s : Server) (r : Round) : Decidable (r.Connects s) :=
  inferInstanceAs (Decidable (_ ∈ _))

/-- What the kernel may answer: calls on valid descriptors succeed, except that a `read` may
fail, an accepted client gets a descriptor that is not in use, and no more is read than was
asked for. -/
structure Round.Allowed (s : Server) (r : Round) : Prop where
  select : r.ready ≠ none
  accept : r.Connects s → 0 < r.newSocket ∧ r.newSocket ≠ s.sockfd ∧ r.newSocket ∉ s.openSockets
  nonblock : r.nonblockResult = 0
  close : r.closeResult = 0
  read : ∀ i, ∀ bytes ∈ r.read i, bytes.length ≤ maxBuff

/-- The condition on a round: there is an entry for a client that connects, and every response
fits in its buffer. -/
structure Round.Admitted (s : Server) (r : Round) : Prop where
  entry : r.Connects s → 0 ∈ s.clientSocket
  fits : ∀ i, ∀ sd ∈ s.clientSocket[i]?, sd ∈ s.readfds r → ∀ bytes ∈ r.read i, Fits bytes

/-- The table holds exactly the open client sockets, each once, and none of them is the
listening socket. -/
structure Exact (s : Server) : Prop where
  perm : (s.clientSocket.filter (· ≠ 0)).Perm s.openSockets
  nodup : s.openSockets.Nodup
  pos : ∀ fd ∈ s.openSockets, 0 < fd
  listening : 0 < s.sockfd ∧ s.sockfd ∉ s.openSockets
  idle : s.sockAdded = false

variable {s s' : Server} {r : Round} {readfds entries entries' openSockets openSockets' : List ℤ}
  {read : ℕ → Option (List UInt8)} {newSocket : ℤ} {i k : ℕ} {sd closeResult fd : ℤ}

/-- What the loop of `comm` does with the first of its entries. -/
inductive CommStep (readfds : List ℤ) (read : ℕ → Option (List UInt8)) (i : ℕ) (sd : ℤ) :
    ℤ → List ℤ → List ℤ → Prop
  /-- The client has closed the connection. -/
  | closed {sockets : List ℤ} : sd ∈ readfds → read i = some [] →
      CommStep readfds read i sd 0 sockets (sockets.erase sd)
  /-- The entry is kept. -/
  | kept {sockets : List ℤ} : CommStep readfds read i sd sd sockets sockets

/-- The loop of `comm` is a sequence of such steps. -/
theorem commFrom_cons
    (h : commFrom readfds read i (sd :: entries) openSockets = some (entries', openSockets')) :
    ∃ sd' middle rest, CommStep readfds read i sd sd' openSockets middle ∧
      commFrom readfds read (i + 1) entries middle = some (rest, openSockets') ∧
      entries' = sd' :: rest := by
  simp only [commFrom] at h
  split_ifs at h with hready
  · split at h
    · rename_i hread
      obtain ⟨result, hrest, heq⟩ := Option.map_eq_some_iff.mp h
      cases heq
      exact ⟨0, _, result.1, .closed hready hread, hrest, rfl⟩
    · obtain ⟨-, -, h⟩ := Option.bind_eq_some_iff.mp h
      obtain ⟨result, hrest, heq⟩ := Option.map_eq_some_iff.mp h
      cases heq
      exact ⟨sd, _, result.1, .kept, hrest, rfl⟩
  · obtain ⟨result, hrest, heq⟩ := Option.map_eq_some_iff.mp h
    cases heq
    exact ⟨sd, _, result.1, .kept, hrest, rfl⟩

/-- The loop of `comm` frees the entries of the sockets it closes. The sockets of the entries
before those it still has to look at stand in front. -/
theorem commFrom_perm (hzero : 0 ∉ readfds) {before : List ℤ}
    (hperm : (before ++ entries.filter (· ≠ 0)).Perm openSockets)
    (h : commFrom readfds read i entries openSockets = some (entries', openSockets')) :
    (before ++ entries'.filter (· ≠ 0)).Perm openSockets' ∧ openSockets'.Sublist openSockets := by
  induction entries generalizing i before openSockets entries' with
  | nil =>
    cases h
    exact ⟨hperm, List.Sublist.refl _⟩
  | cons sd entries ih =>
    obtain ⟨sd', middle, rest, hstep, hrest, rfl⟩ := commFrom_cons h
    cases hstep with
    | closed hready _ =>
      have hsd : sd ≠ 0 := fun hsd => hzero (hsd ▸ hready)
      have herase : (before ++ entries.filter (· ≠ 0)).Perm (openSockets.erase sd) := by
        rw [List.filter_cons_of_pos (by simpa using hsd)] at hperm
        have hfront := List.perm_middle.symm.trans hperm
        exact (List.cons_perm_iff_perm_erase.mp hfront).2
      obtain ⟨hperm', hsub⟩ := ih herase hrest
      exact ⟨by simpa using hperm', hsub.trans List.erase_sublist⟩
    | kept =>
      by_cases hsd : sd = 0
      · simpa [hsd] using ih (by simpa [hsd] using hperm) hrest
      · have hmoved : (before ++ [sd] ++ entries.filter (· ≠ 0)).Perm openSockets := by
          simpa [hsd] using hperm
        simpa [hsd] using ih hmoved hrest

/-- The loop of `comm` runs to its end when every response fits. -/
theorem isSome_commFrom (openSockets : List ℤ)
    (hread : ∀ k, ∀ sd ∈ entries[k]?, sd ∈ readfds → ∀ bytes ∈ read (i + k),
      bytes.length ≤ maxBuff ∧ Fits bytes) :
    (commFrom readfds read i entries openSockets).isSome := by
  induction entries generalizing i openSockets with
  | nil => rfl
  | cons sd entries ih =>
    have htail : ∀ openSockets, (commFrom readfds read (i + 1) entries openSockets).isSome := by
      refine fun openSockets => ih openSockets fun k fd hfd hready => ?_
      have hnext := hread (k + 1) fd hfd hready
      rwa [← Nat.add_assoc, Nat.add_right_comm] at hnext
    simp only [commFrom]
    split_ifs with hready
    · split
      · simpa using htail _
      · have hfits : (wbuff ((read i).getD [])).isSome := by
          cases hbytes : read i with
          | none => exact EchoReply.isSome_wbuff_iff.mpr (by decide)
          | some bytes =>
            obtain ⟨-, hfits⟩ := hread 0 sd rfl hready bytes hbytes
            exact EchoReply.isSome_wbuff_iff.mpr hfits
        obtain ⟨buffer, hbuffer⟩ := Option.isSome_iff_exists.mp hfits
        simpa [hbuffer] using htail _
    · simpa using htail _

/-- `comm` keeps the table exact. -/
theorem Exact.comm (h : Exact s) (hzero : 0 ∉ readfds) : Exact (s.comm readfds read) := by
  unfold Server.comm
  cases hloop : commFrom readfds read 0 s.clientSocket s.openSockets with
  | none => exact ⟨h.perm, h.nodup, h.pos, h.listening, h.idle⟩
  | some result =>
    have hbefore : ([] ++ s.clientSocket.filter (· ≠ 0)).Perm s.openSockets := h.perm
    obtain ⟨hperm, hsub⟩ := commFrom_perm hzero hbefore hloop
    exact ⟨hperm, h.nodup.sublist hsub, fun fd hfd => h.pos fd (hsub.subset hfd),
      ⟨h.listening.1, fun hfd => h.listening.2 (hsub.subset hfd)⟩, h.idle⟩

/-- The table after a client was put into a free entry. -/
theorem perm_filter_set (hget : entries[i]? = some 0) (hnew : newSocket ≠ 0) :
    ((entries.set i newSocket).filter (· ≠ 0)).Perm (entries.filter (· ≠ 0) ++ [newSocket]) := by
  have hbefore := (Custody.perm_cons_eraseIdx hget).filter (· ≠ 0)
  have hafter := (Custody.set_perm_cons_eraseIdx hget newSocket).filter (· ≠ 0)
  rw [List.filter_cons_of_neg (by simp)] at hbefore
  rw [List.filter_cons_of_pos (by simpa using hnew)] at hafter
  exact (hafter.trans (hbefore.symm.cons newSocket)).trans (List.perm_append_singleton _ _).symm

/-- A client is put into a free entry, if there is one. -/
theorem Server.seat_of_entry (s : Server) (newSocket closeResult : ℤ)
    (hentry : 0 ∈ s.clientSocket) :
    ∃ i, s.clientSocket[i]? = some 0 ∧ s.seat newSocket closeResult =
      { s with clientSocket := s.clientSocket.set i newSocket, sockAdded := false } := by
  cases hfind : s.clientSocket.findIdx? (· = 0) with
  | none =>
    have hnone := List.findIdx?_eq_none_iff.mp hfind 0 hentry
    simp at hnone
  | some i =>
    obtain ⟨hi, hzero, -⟩ := List.findIdx?_eq_some_iff_getElem.mp hfind
    refine ⟨i, ?_, ?_⟩
    · rw [List.getElem?_eq_getElem hi, of_decide_eq_true hzero]
    · simp only [Server.seat, Server.place, hfind, if_true]

/-- Without a free entry the client is closed, and the server exits if that succeeds. -/
theorem Server.seat_of_full (hfull : 0 ∉ s.clientSocket) (hidle : s.sockAdded = false)
    (hclose : closeResult = 0) : s.seat newSocket closeResult =
      { s with openSockets := s.openSockets.erase newSocket, status := .exited } := by
  have hfind : s.clientSocket.findIdx? (· = 0) = none :=
    List.findIdx?_eq_none_iff.mpr fun fd hfd => decide_eq_false fun hzero => hfull (hzero ▸ hfd)
  simp [Server.seat, Server.place, hfind, hidle, hclose]

/-- Admitting a client keeps the table exact: it gets an entry, or its socket is closed. -/
theorem Exact.seat (h : Exact s) (hpos : 0 < newSocket) (hlistening : newSocket ≠ s.sockfd)
    (hnew : newSocket ∉ s.openSockets) (hclose : closeResult = 0) :
    Exact ((s.accepted newSocket).seat newSocket closeResult) := by
  by_cases hentry : 0 ∈ s.clientSocket
  · obtain ⟨i, hget, hplaced⟩ := (s.accepted newSocket).seat_of_entry newSocket closeResult hentry
    have hfree : s.clientSocket[i]? = some 0 := hget
    have hperm := (perm_filter_set hfree (by omega)).trans (h.perm.append_right [newSocket])
    rw [hplaced]
    refine ⟨hperm, ?_, ?_, ⟨h.listening.1, ?_⟩, rfl⟩
    · exact (List.perm_append_singleton _ _).nodup_iff.mpr (List.nodup_cons.mpr ⟨hnew, h.nodup⟩)
    · intro fd hfd
      rcases List.mem_append.mp hfd with hfd | hfd
      · exact h.pos fd hfd
      · rwa [List.mem_singleton.mp hfd]
    · intro hfd
      rcases List.mem_append.mp hfd with hfd | hfd
      · exact h.listening.2 hfd
      · exact hlistening (List.mem_singleton.mp hfd).symm
  · have herase : (s.openSockets ++ [newSocket]).erase newSocket = s.openSockets := by
      rw [List.erase_append_right _ hnew, List.erase_cons_head, List.append_nil]
    rw [Server.seat_of_full (s := s.accepted newSocket) hentry h.idle hclose, Server.accepted,
      herase]
    exact ⟨h.perm, h.nodup, h.pos, h.listening, h.idle⟩

/-- Only the listening socket and open sockets can be in the set after `select`. -/
theorem Exact.mem_readfds (h : Exact s) (hfd : fd ∈ s.readfds r) :
    fd = s.sockfd ∨ fd ∈ s.openSockets := by
  have hwatched : fd ∈ s.sockfd :: s.clientSocket.filter (0 < ·) := by
    unfold Server.readfds at hfd
    split at hfd
    · exact hfd
    · exact List.mem_of_mem_filter hfd
  rcases List.mem_cons.mp hwatched with hfd | hfd
  · exact .inl hfd
  · obtain ⟨hentry, hpos⟩ := List.mem_filter.mp hfd
    have hne : fd ≠ 0 := by
      have := of_decide_eq_true hpos
      omega
    exact .inr (h.perm.mem_iff.mp (List.mem_filter.mpr ⟨hentry, decide_eq_true hne⟩))

/-- Every descriptor in the set is positive. -/
theorem Exact.zero_notMem_readfds (h : Exact s) (r : Round) : 0 ∉ s.readfds r := by
  intro hzero
  rcases h.mem_readfds hzero with heq | hopen
  · have := h.listening.1
    omega
  · have := h.pos 0 hopen
    omega

/-- What a round does that the kernel allows. -/
inductive Server.Rounds (s : Server) (r : Round) : Server → Prop
  /-- No client connects. -/
  | reads : ¬r.Connects s → Rounds s r (s.comm (s.readfds r) r.read)
  /-- A client is put into a free entry. -/
  | admits : r.Connects s → 0 ∈ s.clientSocket →
      Rounds s r (((s.accepted r.newSocket).seat r.newSocket r.closeResult).comm
        (s.readfds r) r.read)
  /-- A client is refused. -/
  | refuses : r.Connects s → 0 ∉ s.clientSocket →
      Rounds s r ((s.accepted r.newSocket).seat r.newSocket r.closeResult)

/-- Every round the kernel allows is one of these. -/
theorem Exact.rounds_of_round (h : Exact s) (hallowed : r.Allowed s)
    (hround : s.round r = some s') : s.status = .running ∧ s.Rounds r s' := by
  simp only [Server.round] at hround
  split_ifs at hround with hstatus hconnects haccept hnonblock hrunning
  · obtain ⟨hpos, -⟩ := hallowed.accept hconnects
    omega
  · have := hallowed.nonblock
    omega
  · have hentry : 0 ∈ s.clientSocket := by
      by_contra hfull
      rw [Server.seat_of_full (s := s.accepted r.newSocket) hfull h.idle hallowed.close] at hrunning
      cases hrunning
    cases hround
    exact ⟨not_not.mp hstatus, .admits hconnects hentry⟩
  · have hfull : 0 ∉ s.clientSocket := by
      intro hentry
      obtain ⟨i, -, hplaced⟩ :=
        (s.accepted r.newSocket).seat_of_entry r.newSocket r.closeResult hentry
      rw [hplaced] at hrunning
      exact hrunning (not_not.mp hstatus)
    cases hround
    exact ⟨not_not.mp hstatus, .refuses hconnects hfull⟩
  · cases hround
    exact ⟨not_not.mp hstatus, .reads hconnects⟩

/-- Every round the kernel allows keeps the table exact. -/
theorem Exact.round (h : Exact s) (hallowed : r.Allowed s) (hround : s.round r = some s') :
    Exact s' := by
  have hzero := h.zero_notMem_readfds r
  have hplaced (hconnects : r.Connects s) :
      Exact ((s.accepted r.newSocket).seat r.newSocket r.closeResult) := by
    obtain ⟨hpos, hlistening, hnew⟩ := hallowed.accept hconnects
    exact h.seat hpos hlistening hnew hallowed.close
  cases (h.rounds_of_round hallowed hround).2 with
  | reads => exact h.comm hzero
  | admits hconnects => exact (hplaced hconnects).comm hzero
  | refuses hconnects => exact hplaced hconnects

/-- `comm` runs to its end when every response fits. -/
theorem Server.status_comm (hread : ∀ i, ∀ sd ∈ s.clientSocket[i]?, sd ∈ readfds → ∀ bytes ∈ read i,
      bytes.length ≤ maxBuff ∧ Fits bytes) : (s.comm readfds read).status = s.status := by
  have hloop : (commFrom readfds read 0 s.clientSocket s.openSockets).isSome := by
    refine isSome_commFrom s.openSockets fun k sd hsd hready => ?_
    rw [Nat.zero_add]
    exact hread k sd hsd hready
  obtain ⟨result, hresult⟩ := Option.isSome_iff_exists.mp hloop
  simp only [Server.comm, hresult]

/-- The server goes on as long as no client is refused and every response fits. -/
theorem Exact.running (h : Exact s) (hallowed : r.Allowed s) (hadmitted : r.Admitted s)
    (hround : s.round r = some s') : s'.status = .running := by
  obtain ⟨hrunning, hrounds⟩ := h.rounds_of_round hallowed hround
  have hread : ∀ i, ∀ sd ∈ s.clientSocket[i]?, sd ∈ s.readfds r → ∀ bytes ∈ r.read i,
      bytes.length ≤ maxBuff ∧ Fits bytes := fun i sd hsd hready bytes hbytes =>
    ⟨hallowed.read i bytes hbytes, hadmitted.fits i sd hsd hready bytes hbytes⟩
  cases hrounds with
  | reads => rw [Server.status_comm hread, hrunning]
  | refuses hconnects hfull => exact absurd (hadmitted.entry hconnects) hfull
  | admits hconnects hentry =>
    obtain ⟨i, -, hplaced⟩ :=
      (s.accepted r.newSocket).seat_of_entry r.newSocket r.closeResult hentry
    obtain ⟨-, hlistening, hnew⟩ := hallowed.accept hconnects
    rw [hplaced]
    refine (Server.status_comm ?_).trans hrunning
    intro k sd hsd hready
    rcases Custody.getElem?_set_cases hsd with ⟨-, rfl⟩ | ⟨-, hget⟩
    · -- The new socket was not watched yet.
      rcases h.mem_readfds hready with heq | hopen
      · exact absurd heq hlistening
      · exact absurd hopen hnew
    · exact hread k sd hget hready

/-- **The connection table.** As long as there is an entry for every client that connects and
every response fits in its buffer, the server runs, the entries of the table that are not
zero are distinct, and they are exactly the accepted sockets that have not been closed. -/
theorem client_table_exact
    (hreach : server.ReachableUnder (fun s r => r.Allowed s ∧ r.Admitted s) s) :
    s.status = .running ∧ (s.clientSocket.filter (· ≠ 0)).Nodup ∧
      ∀ fd, fd ∈ s.clientSocket ∧ fd ≠ 0 ↔ fd ∈ s.openSockets := by
  have hinv : Exact s ∧ s.status = .running := by
    refine hreach.invariant (fun s => Exact s ∧ s.status = .running) ?_ ?_
    · rintro s ⟨sockfd, hpos, rfl⟩
      have hfilter : (Server.initial sockfd).clientSocket.filter (· ≠ 0) = [] := rfl
      refine ⟨⟨?_, List.nodup_nil, fun fd hfd => ?_, ⟨hpos, List.not_mem_nil⟩, rfl⟩, rfl⟩
      · rw [hfilter]
        exact List.Perm.nil
      · exact absurd hfd List.not_mem_nil
    · rintro s r s' ⟨h, -⟩ ⟨hallowed, hadmitted⟩ hround
      exact ⟨h.round hallowed hround, h.running hallowed hadmitted hround⟩
  obtain ⟨h, hrunning⟩ := hinv
  refine ⟨hrunning, h.perm.nodup_iff.mpr h.nodup, fun fd => ?_⟩
  rw [← h.perm.mem_iff, List.mem_filter, decide_eq_true_eq]

/-- A round in which a client connects and nothing is read. -/
def Round.connect (fd : ℤ) : Round := { ready := some [3], newSocket := fd }

/-- The descriptors of a number of clients, from four on. -/
def descriptors (k : ℕ) : List ℤ := (List.range k).map fun i : ℕ => (i : ℤ) + 4

/-- The server after a number of clients have connected. -/
def Server.filled (k : ℕ) : Server where
  sockfd := 3
  clientSocket := descriptors k ++ List.replicate (maxConn - k) 0
  sockAdded := false
  openSockets := descriptors k
  status := .running

/-- The range of these descriptors. -/
theorem mem_descriptors (hfd : fd ∈ descriptors k) : 4 ≤ fd ∧ fd < k + 4 := by
  obtain ⟨i, hi, rfl⟩ := List.mem_map.mp hfd
  have hlt := List.mem_range.mp hi
  omega

/-- One more client connects. -/
theorem Server.round_filled :
    ∀ k < maxConn, (Server.filled k).round (.connect (k + 4)) = some (Server.filled (k + 1)) := by
  decide +kernel

/-- The kernel may answer so. -/
theorem Round.allowed_connect (k : ℕ) : (Round.connect (k + 4)).Allowed (Server.filled k) := by
  refine ⟨by simp [Round.connect], fun _ => ⟨?_, ?_, ?_⟩, rfl, rfl, fun i bytes hbytes => ?_⟩
  · simp only [Round.connect]
    omega
  · simp only [Round.connect, Server.filled]
    omega
  · intro hmem
    have := mem_descriptors hmem
    simp only [Round.connect] at this
    omega
  · cases hbytes

/-- The full table is reached. -/
theorem Server.reachable_filled (hk : k ≤ maxConn) :
    server.ReachableUnder (fun s r => r.Allowed s) (Server.filled k) := by
  induction k with
  | zero => exact .start ⟨3, by decide, by decide⟩
  | succ k ih =>
    exact .next (ih (Nat.le_of_lt hk)) (Round.allowed_connect k) (Server.round_filled k hk)

/-- A client connects and has an entry of the table. -/
theorem client_table_exact_one_client :
    ∃ s, server.ReachableUnder (fun s r => r.Allowed s ∧ r.Admitted s) s ∧
      s.openSockets = [4] ∧ s.status = .running ∧ (s.clientSocket.filter (· ≠ 0)).Nodup ∧
      ∀ fd, fd ∈ s.clientSocket ∧ fd ≠ 0 ↔ fd ∈ s.openSockets := by
  have hconnect : (Round.connect 4).Admitted (Server.filled 0) :=
    ⟨fun _ => by decide, fun i sd _ _ bytes hbytes => by cases hbytes⟩
  have hreach : server.ReachableUnder (fun s r => r.Allowed s ∧ r.Admitted s) (Server.filled 1) :=
    .next (.start ⟨3, by decide, by decide⟩) ⟨Round.allowed_connect 0, hconnect⟩
      (Server.round_filled 0 (by decide))
  exact ⟨Server.filled 1, hreach, by decide, client_table_exact hreach⟩

/-- A client that connects while all entries are used is closed, and the server exits. -/
theorem full_server_exits :
    ∃ s r s', server.ReachableUnder (fun s r => r.Allowed s) s ∧ r.Allowed s ∧ r.Connects s ∧
      0 ∉ s.clientSocket ∧ s.round r = some s' ∧ s'.clientSocket = s.clientSocket ∧
      r.newSocket ∉ s'.openSockets ∧ s'.status = .exited := by
  refine ⟨Server.filled maxConn, .connect (maxConn + 4),
    { Server.filled maxConn with status := .exited },
    Server.reachable_filled le_rfl, Round.allowed_connect maxConn, by decide, by decide,
    by decide +kernel, rfl, by decide, rfl⟩

end Hack.SelectTcp
