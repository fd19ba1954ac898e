import Hack.Epoll.Events
import Hack.Machine

/-!
# Edge-triggered events of the epoll server

The server of `sock-epoll-tcp` registers its clients with `EPOLLET`. The kernel then reports
a client when something arrives, and not again for what was left unread. This file runs the
loop of `main` against such a kernel. For each registered socket the kernel keeps the bytes
that were not read yet and whether an event is pending, and `epoll_wait` turns pending
events into reports that the loop handles one after the other. `handle_client` calls `read`
once, so a client that has sent more than the buffer holds is left with unread bytes and
without an event.
-/

namespace Hack.Epoll

open EchoResponse

/-- What the kernel keeps for a connection. -/
structure Conn where
  /-- The bytes that have arrived and were not read. -/
  unread : List UInt8 := []
  /-- The client has closed its side. -/
  eof : Bool := false
  /-- The connection was reset. -/
  failed : Bool := false
  /-- An event is to be reported. -/
  pending : Bool := false
deriving DecidableEq

/-- The events of a connection as `epoll_wait` reports them. -/
def Conn.events (c : Conn) : BitVec 32 :=
  (if c.unread ≠ [] ∨ c.eof ∨ c.failed then epollIn else 0) |||
    (if c.failed then epollErr ||| epollHup else 0)

/-- The server with what the kernel keeps for it. -/
structure Server where
  sockfd : ℤ
  /-- The registered client sockets, which are open. -/
  conns : ℤ → Option Conn
  /-- Connections that were not accepted yet. -/
  backlog : List Conn
  /-- An event of the listening socket is to be reported. -/
  listening : Bool
  /-- The events of the last `epoll_wait` that are still to be handled. -/
  reports : List EpollEvent

/-- What happens next: the clients, the kernel, or the server. -/
inductive Event
  /-- A client connects. -/
  | connect
  /-- Bytes arrive at a connection that was not accepted yet. -/
  | sendEarly (i : ℕ) (bytes : List UInt8)
  /-- Bytes arrive at a registered socket. -/
  | send (fd : ℤ) (bytes : List UInt8)
  /-- The client of a registered socket closes its side. -/
  | shutdown (fd : ℤ)
  /-- The connection of a registered socket is reset. -/
  | reset (fd : ℤ)
  /-- `epoll_wait` takes these sockets off its list of pending events. -/
  | wait (fds : List ℤ)
  /-- The next `accept` of `handle_conn`, which returns a client or fails. -/
  | accept (infd : Option ℤ)
  /-- The next report is handled otherwise. -/
  | handle

/-- A change of a registered socket, which makes an event pending. -/
def Server.arrive (s : Server) (fd : ℤ) (change : Conn → Conn) : Option Server :=
  (s.conns fd).map fun c =>
    { s with conns := Function.update s.conns fd (some { change c with pending := true }) }

/-- A connection of which something is to be reported when it is registered. -/
def Conn.register (c : Conn) : Conn := { c with pending := c.events ≠ 0 }

/-- `epoll_wait`: the events that are pending for the sockets are reported and cleared. A
socket for which there is nothing to report any more is dropped from the list. -/
def Server.wait (s : Server) (fds : List ℤ) : Server where
  sockfd := s.sockfd
  conns fd := (s.conns fd).map fun c => if fd ∈ fds then { c with pending := false } else c
  backlog := s.backlog
  listening := s.listening && s.sockfd ∉ fds
  reports := fds.filterMap fun fd =>
    let events := if fd = s.sockfd then epollIn else ((s.conns fd).map Conn.events).getD 0
    if events = 0 then none else some ⟨events, fd⟩

/-- An event of this socket is pending. -/
def Server.pendingAt (s : Server) (fd : ℤ) : Bool :=
  if fd = s.sockfd then s.listening else ((s.conns fd).map Conn.pending).getD false

/-- `read` of `handle_client`: what it stores, `none` if it fails. -/
def Conn.read (c : Conn) : Option (List UInt8) :=
  if c.failed then none
  else if c.unread = [] then (if c.eof then some [] else none)
  else some (c.unread.take maxBuff)

/-- `handle_client` on a connection: it is closed, or has as many bytes less to read. A
response that overruns its buffer is a fault. -/
def Conn.handleClient (c : Conn) : Option (Option Conn) :=
  (wbuff (c.read.getD [])).map fun _ =>
    if c.read.getD [] = [] then none else some { c with unread := c.unread.drop maxBuff }

/-- The state after an event. -/
def Server.next (s : Server) : Event → Option Server
  | .connect => some { s with backlog := s.backlog ++ [{}], listening := true }
  | .sendEarly i bytes =>
    some { s with backlog := s.backlog.modify i fun c => { c with unread := c.unread ++ bytes } }
  | .send fd bytes => s.arrive fd fun c => { c with unread := c.unread ++ bytes }
  | .shutdown fd => s.arrive fd fun c => { c with eof := true }
  | .reset fd => s.arrive fd fun c => { c with failed := true }
  | .wait fds =>
    if s.reports = [] ∧ fds.length ≤ maxConn ∧ fds.Nodup ∧ ∀ fd ∈ fds, s.pendingAt fd then
      some (s.wait fds)
    else none
  | .accept infd =>
    match s.reports with
    | ev :: reports =>
      if ev.branch s.sockfd ≠ .conn then none
      else match infd, s.backlog with
        | none, _ => some { s with reports }
        | some infd, c :: backlog =>
          -- The kernel returns a descriptor that is not in use.
          if infd = s.sockfd ∨ s.conns infd ≠ none then none
          else some { s with
            conns := Function.update s.conns infd (some c.register), backlog }
        | some _, [] => none
    | [] => none
  | .handle =>
    match s.reports with
    | ev :: reports =>
      match ev.branch s.sockfd, s.conns ev.fd with
      | .close, _ => some { s with conns := Function.update s.conns ev.fd none, reports }
      | .client, none => some { s with reports }
      | .client, some c =>
        c.handleClient.map fun c => { s with conns := Function.update s.conns ev.fd c, reports }
      | .conn, _ => none
    | [] => none

/-- The server as a machine, started with the listening socket registered. -/
def server : Machine Server Event where
  start s := ∃ sockfd, s = ⟨sockfd, fun _ => none, [], false, []⟩
  next := Server.next

/-- The condition on an event: when `handle_client` reads from a client, no more bytes are
unread than the buffer holds. The branch that only closes the socket is not restricted. -/
def Drains (s : Server) : Event → Prop
  | .handle => ∀ ev ∈ s.reports.head?, ev.branch s.sockfd = .client →
      ∀ c ∈ s.conns ev.fd, c.unread.length ≤ maxBuff
  | _ => True

/-- A socket with unread bytes has a pending event, or was reported and is still to be
handled. -/
structure Watched (s : Server) : Prop where
  listener : s.conns s.sockfd = none
  reported : ∀ fd c, s.conns fd = some c → c.unread ≠ [] →
    c.pending = true ∨ fd ∈ s.reports.map EpollEvent.fd

variable {s s' : Server} {event : Event} {fd : ℤ} {ev : EpollEvent} {reports : List EpollEvent}
  {conn : Option Conn} {c : Conn}

/-- One socket is changed. It stays watched if it is closed, has nothing to read, or gets an
event, and the reports of the others are kept. -/
theorem Watched.update (h : Watched s) (backlog : List Conn) (listening : Bool)
    (hlistener : fd = s.sockfd → conn = none)
    (hconn : ∀ c, conn = some c → c.unread ≠ [] → c.pending = true)
    (hreports : ∀ fd' ≠ fd, fd' ∈ s.reports.map EpollEvent.fd → fd' ∈ reports.map EpollEvent.fd) :
    Watched ⟨s.sockfd, Function.update s.conns fd conn, backlog, listening, reports⟩ := by
  refine ⟨?_, fun fd' c hc hunread => ?_⟩
  · by_cases hfd : s.sockfd = fd
    · simp only [hfd, Function.update_self]
      exact hlistener hfd.symm
    · simp only [Function.update_of_ne hfd]
      exact h.listener
  · by_cases hfd : fd' = fd
    · subst hfd
      simp only [Function.update_self] at hc
      exact .inl (hconn c hc hunread)
    · simp only [Function.update_of_ne hfd] at hc
      exact (h.reported fd' c hc hunread).imp_right (hreports fd' hfd)

/-- A registered socket is not the listening one. -/
theorem Watched.ne_sockfd (h : Watched s) (hc : s.conns fd = some c) : fd ≠ s.sockfd := by
  rintro rfl
  rw [h.listener] at hc
  cases hc

/-- Something arrives at a socket. -/
theorem Watched.arrive {change : Conn → Conn} (h : Watched s)
    (harrive : s.arrive fd change = some s') : Watched s' := by
  obtain ⟨c, hc, rfl⟩ := Option.map_eq_some_iff.mp harrive
  refine h.update s.backlog s.listening (fun hfd => absurd hfd (h.ne_sockfd hc)) ?_
    (fun _ _ => id)
  rintro c' ⟨rfl⟩ -
  rfl

/-- A connection with unread bytes is reported. -/
theorem Conn.events_ne_zero (hunread : c.unread ≠ []) : c.events ≠ 0 := by
  cases hfailed : c.failed <;>
    simp [Conn.events, hunread, hfailed, epollIn, epollErr, epollHup]

/-- `epoll_wait` reports every socket with unread bytes that it takes off its list. -/
theorem Watched.wait (h : Watched s) (hidle : s.reports = []) (fds : List ℤ) :
    Watched (s.wait fds) := by
  refine ⟨?_, fun fd c hc hunread => ?_⟩
  · simp only [Server.wait, h.listener, Option.map_none]
  · obtain ⟨c', hc', heq⟩ := Option.map_eq_some_iff.mp hc
    by_cases hfd : fd ∈ fds
    · rw [if_pos hfd] at heq
      subst heq
      have hevents : c'.events ≠ 0 := Conn.events_ne_zero hunread
      have hreport : (⟨c'.events, fd⟩ : EpollEvent) ∈ (s.wait fds).reports := by
        refine List.mem_filterMap.mpr ⟨fd, hfd, ?_⟩
        simp only [h.ne_sockfd hc', hc', if_false, Option.map_some, Option.getD_some]
        exact if_neg hevents
      exact .inr (List.mem_map_of_mem hreport)
    · rw [if_neg hfd] at heq
      subst heq
      rcases h.reported fd c' hc' hunread with hpending | hreport
      · exact .inl hpending
      · rw [hidle] at hreport
        simp at hreport

/-- A client is registered, with an event if it has sent something already. -/
theorem Watched.register {infd : ℤ} (h : Watched s) (hnew : infd ≠ s.sockfd) (backlog : List Conn) :
    Watched { s with conns := Function.update s.conns infd (some c.register), backlog } := by
  refine h.update backlog s.listening (fun hfd => absurd hfd hnew) ?_ (fun _ _ => id)
  rintro c' ⟨rfl⟩ hunread
  exact decide_eq_true (Conn.events_ne_zero hunread)

/-- The first report has been handled: its socket is closed or has no unread bytes. -/
theorem Watched.handled (h : Watched s) (hreports : s.reports = ev :: reports)
    (hlistener : ev.fd = s.sockfd → conn = none) (hconn : ∀ c, conn = some c → c.unread = []) :
    Watched { s with conns := Function.update s.conns ev.fd conn, reports } := by
  refine h.update s.backlog s.listening hlistener ?_ fun fd' hfd hreport => ?_
  · intro c hc hunread
    exact absurd (hconn c hc) hunread
  · rw [hreports, List.map_cons] at hreport
    exact (List.mem_cons.mp hreport).resolve_left hfd

/-- A report of a socket that is not registered is dropped. -/
theorem Watched.dropped (h : Watched s) (hreports : s.reports = ev :: reports)
    (hclosed : s.conns ev.fd = none) : Watched { s with reports } := by
  have hsame : Function.update s.conns ev.fd none = s.conns := by
    rw [← hclosed, Function.update_eq_self]
  have hhandled : Watched { s with conns := Function.update s.conns ev.fd none, reports } :=
    h.handled hreports (fun _ => rfl) (by simp)
  rwa [hsame] at hhandled

/-- A client that has not sent more than the buffer holds is closed or drained. -/
theorem Conn.handleClient_drains (hdrains : c.unread.length ≤ maxBuff)
    (hhandle : c.handleClient = some conn) : ∀ c', conn = some c' → c'.unread = [] := by
  rintro c' rfl
  obtain ⟨-, -, hconn⟩ := Option.map_eq_some_iff.mp hhandle
  split_ifs at hconn
  cases hconn
  exact List.drop_eq_nil_of_le hdrains

/-- Every event that meets the condition keeps the sockets watched. -/
theorem Watched.next (h : Watched s) (hdrains : Drains s event)
    (hnext : s.next event = some s') : Watched s' := by
  cases event with
  | connect =>
    cases hnext
    exact ⟨h.listener, h.reported⟩
  | sendEarly i bytes =>
    cases hnext
    exact ⟨h.listener, h.reported⟩
  | send fd bytes => exact h.arrive hnext
  | shutdown fd => exact h.arrive hnext
  | reset fd => exact h.arrive hnext
  | wait fds =>
    simp only [Server.next] at hnext
    split_ifs at hnext with hwait
    cases hnext
    exact h.wait hwait.1 fds
  | accept infd =>
    cases hreports : s.reports with
    | nil => simp [Server.next, hreports] at hnext
    | cons ev reports =>
      simp only [Server.next, hreports] at hnext
      split_ifs at hnext with hbranch
      have hlistening : ev.fd = s.sockfd := by
        simp only [EpollEvent.branch, ne_eq, not_not] at hbranch
        split_ifs at hbranch with hfailed hfd
        exact hfd.symm
      split at hnext
      · cases hnext
        exact h.dropped hreports (hlistening ▸ h.listener)
      · split_ifs at hnext with hused
        cases hnext
        rw [← hreports]
        exact h.register (not_or.mp hused).1 _
      · cases hnext
  | handle =>
    cases hreports : s.reports with
    | nil => simp [Server.next, hreports] at hnext
    | cons ev reports =>
      simp only [Server.next, hreports] at hnext
      split at hnext
      · cases hnext
        exact h.handled hreports (fun _ => rfl) (by simp)
      · rename_i hclosed
        cases hnext
        exact h.dropped hreports hclosed
      · rename_i c hbranch hc
        obtain ⟨conn, hconn, rfl⟩ := Option.map_eq_some_iff.mp hnext
        have hlength : c.unread.length ≤ maxBuff := hdrains ev (by simp [hreports]) hbranch c hc
        exact h.handled hreports (fun hfd => absurd hfd (h.ne_sockfd hc))
          (Conn.handleClient_drains hlength hconn)
      · cases hnext

/-- **No stalled data.** As long as no client has more bytes unread than the buffer holds when
`handle_client` reads from it, a registered socket with unread bytes has a pending event, unless
an event of it was delivered by the last `epoll_wait` and is still to be handled. -/
theorem unread_socket_pending (hreach : server.ReachableUnder Drains s) :
    ∀ fd c, s.conns fd = some c → c.unread ≠ [] → fd ∉ s.reports.map EpollEvent.fd →
      c.pending = true := by
  have hinv : Watched s := by
    refine hreach.invariant Watched ?_ fun s event s' h hdrains hnext => h.next hdrains hnext
    rintro s ⟨sockfd, rfl⟩
    exact ⟨rfl, by simp⟩
  intro fd c hc hunread hreports
  exact (hinv.reported fd c hc hunread).resolve_right hreports

/-- A client connects and sends some bytes, and the server handles all events. -/
def Event.served (bytes : List UInt8) : List Event :=
  [.connect, .wait [3], .accept (some 5), .accept none, .send 5 bytes, .wait [5], .handle]

/-- A check for the condition. -/
def drains (s : Server) : Event → Bool
  | .handle => match s.reports with
    | ev :: _ => decide (ev.branch s.sockfd ≠ .client) ||
        ((s.conns ev.fd).map fun c => decide (c.unread.length ≤ maxBuff)).getD true
    | [] => true
  | _ => true

/-- Events that pass the check meet the condition. -/
theorem drains_of_check (h : drains s event = true) : Drains s event := by
  cases event with
  | handle =>
    intro ev hev hbranch c hc
    cases hreports : s.reports with
    | nil => simp [hreports] at hev
    | cons ev' reports =>
      obtain rfl : ev' = ev := by simpa [hreports] using hev
      simpa [drains, hreports, hbranch, Option.mem_def.mp hc] using h
  | _ => trivial

/-- What a client has sent was read, and more arrives. -/
theorem unread_socket_pending_served : ∃ s, server.ReachableUnder Drains s ∧
      s.conns 5 = some { unread := [9], pending := true } ∧
      ∀ fd c, s.conns fd = some c → c.unread ≠ [] → fd ∉ s.reports.map EpollEvent.fd →
        c.pending = true := by
  have hview : ((server.guarded drains).run ⟨3, fun _ => none, [], false, []⟩
      (Event.served [7, 8] ++ [.send 5 [9]])).map (fun s => s.conns 5) =
      some (some { unread := [9], pending := true }) := by decide +kernel
  obtain ⟨s, hrun, hconn⟩ := Option.map_eq_some_iff.mp hview
  have hreach : server.ReachableUnder Drains s :=
    .of_guarded_run (.start ⟨3, rfl⟩) (fun _ _ => drains_of_check) hrun
  exact ⟨s, hreach, hconn, unread_socket_pending hreach⟩

/-- A client has sent one byte more than the buffer holds. The server waits for the next
event with the byte unread and without an event for it. -/
theorem last_byte_stalls : ∃ s, server.Reachable s ∧ s.reports = [] ∧
      s.conns 5 = some { unread := [0], pending := false } := by
  have hview : (server.run ⟨3, fun _ => none, [], false, []⟩
      (Event.served (List.replicate 1025 0))).map (fun s => (s.reports, s.conns 5)) =
      some ([], some { unread := [0], pending := false }) := by decide +kernel
  obtain ⟨s, hrun, hview⟩ := Option.map_eq_some_iff.mp hview
  obtain ⟨hreports, hconn⟩ := Prod.mk.inj hview
  exact ⟨s, .of_run (.start ⟨3, rfl⟩) hrun, hreports, hconn⟩

end Hack.Epoll
