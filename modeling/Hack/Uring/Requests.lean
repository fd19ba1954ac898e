import Hack.Uring.Server
import Mathlib.Data.List.TakeWhile

/-!
# Requests that end the io_uring server

`server_loop` trusts its clients with two things. A request without a line end in its first
1024 bytes makes `handle_client_request` call `exit`, and a request line without a method makes
`handle_http_method` pass a null pointer to `strtolower`. This file says on the bytes of the
requests which runs of the server go on.
-/

namespace Hack.Uring

/-- What a completion may be when no call fails: an accept yields a descriptor that is not
open, and a read yields any bytes, as many as its result says. -/
def Completion.Delivered (s : Server) (c : Completion) : Prop :=
  0 ≤ c.res ∧ match s.inFlight[c.index]? with
    | none => False
    | some .accept => c.res.toNat ∉ s.openSockets
    | some (.read _) => c.bytes.length = c.res ∧ c.bytes.length ≤ readSz
    | some (.write _ _) => True

/-- A line end at an index. -/
def LineEndsAt (buffer : List UInt8) (i : ℕ) : Prop :=
  buffer[i]? = some 13 ∧ buffer[i + 1]? = some 10

instance (buffer : List UInt8) (i : ℕ) : Decidable (LineEndsAt buffer i) :=
  inferInstanceAs (Decidable (_ ∧ _))

/-- The first line end begins within the first 1024 bytes, and before it and before the first
zero byte stands a byte other than a space. -/
def HasMethod (buffer : List UInt8) : Prop :=
  ∃ i < 1024, LineEndsAt buffer i ∧ (∀ k < i, ¬LineEndsAt buffer k) ∧
    ∃ byte ∈ (buffer.take i).takeWhile (· ≠ 0), byte ≠ 32

/-- The condition on a completion: a read that is not empty yields a request with a method. -/
def Completion.WellFormed (s : Server) (c : Completion) : Prop :=
  ∀ sock, s.inFlight[c.index]? = some (.read sock) → c.res ≠ 0 → HasMethod c.buffer

variable {s : Server} {c : Completion} {src line : List UInt8}

/-- `get_line` returns what stands before the first line end. -/
theorem getLineFrom_eq_some_iff {n i : ℕ} : getLineFrom src n i = some line ↔
      ∃ k, i ≤ k ∧ k < i + n ∧ LineEndsAt src k ∧ (∀ j, i ≤ j → j < k → ¬LineEndsAt src j) ∧
        line = src.take k := by
  induction n generalizing i with
  | zero =>
    refine ⟨fun h => by simp [getLineFrom] at h, ?_⟩
    rintro ⟨k, hle, hlt, -⟩
    omega
  | succ n ih =>
    rw [getLineFrom]
    split_ifs with hend
    · constructor
      · intro h
        exact ⟨i, Nat.le_refl i, by omega, hend, fun j hle hlt => by omega,
          (Option.some_inj.mp h).symm⟩
      · rintro ⟨k, hle, -, -, hfirst, rfl⟩
        -- The line ends here, so it cannot end later for the first time.
        obtain rfl : k = i := by
          by_contra hne
          exact hfirst i (Nat.le_refl i) (by omega) hend
        rfl
    · rw [ih]
      constructor
      · rintro ⟨k, hle, hlt, hk, hfirst, rfl⟩
        refine ⟨k, by omega, by omega, hk, fun j hij hjk => ?_, rfl⟩
        rcases Nat.eq_or_lt_of_le hij with rfl | hij
        · exact hend
        · exact hfirst j hij hjk
      · rintro ⟨k, hle, hlt, hk, hfirst, rfl⟩
        have hne : k ≠ i := by
          rintro rfl
          exact hend hk
        exact ⟨k, by omega, by omega, hk, fun j hij hjk => hfirst j (by omega) hjk, rfl⟩

/-- A line has a method if it is not made of spaces up to its first zero byte. -/
theorem isSome_methodToken_iff :
    (methodToken line).isSome ↔ ∃ byte ∈ line.takeWhile (· ≠ 0), byte ≠ 32 := by
  unfold methodToken
  dsimp only
  split_ifs with hnil
  · rw [List.dropWhile_eq_nil_iff] at hnil
    simpa using hnil
  · rw [List.dropWhile_eq_nil_iff] at hnil
    simpa using hnil

/-- The code finds a method exactly in the requests that have one. -/
theorem isSome_method_iff (buffer : List UInt8) :
    ((getLine buffer 1024).bind methodToken).isSome ↔ HasMethod buffer := by
  constructor
  · intro h
    obtain ⟨method, hmethod⟩ := Option.isSome_iff_exists.mp h
    obtain ⟨line, hline, hmethod⟩ := Option.bind_eq_some_iff.mp hmethod
    obtain ⟨k, -, hlt, hk, hfirst, rfl⟩ := getLineFrom_eq_some_iff.mp hline
    exact ⟨k, by omega, hk, fun j hj => hfirst j (Nat.zero_le _) hj,
      isSome_methodToken_iff.mp (Option.isSome_of_eq_some hmethod)⟩
  · rintro ⟨k, hlt, hk, hfirst, hmethod⟩
    have hline : getLine buffer 1024 = some (buffer.take k) :=
      getLineFrom_eq_some_iff.mpr
        ⟨k, Nat.zero_le _, by omega, hk, fun j _ hj => hfirst j hj, rfl⟩
    rw [hline, Option.bind_some]
    exact isSome_methodToken_iff.mpr hmethod

/-- The server goes on after a completion exactly if it meets the condition. -/
theorem Server.isSome_complete_iff (hdelivered : c.Delivered s) :
    (s.complete c).isSome ↔ c.WellFormed s := by
  obtain ⟨hres, hdelivered⟩ := hdelivered
  simp only [Server.complete, if_neg (Int.not_lt.mpr hres)]
  unfold Completion.WellFormed
  cases hreq : s.inFlight[c.index]? with
  | none => simp [hreq] at hdelivered
  | some req =>
    cases req with
    | accept => simp
    | write sock content => simp
    | read sock =>
      dsimp only
      split_ifs with hzero
      · simp [hzero]
      · rw [Option.isSome_map, handleClientRequest_eq, Option.isSome_map, isSome_method_iff]
        simp [hzero]

/-- **Which clients can stop the server.** For every sequence of completions that the kernel
can deliver, the server handles all of them if and only if each request that is read and not
empty has a method in a line that ends within its first 1024 bytes. -/
theorem server_survives_iff {completions : List Completion}
    (hdelivered : serverLoop.Along (fun s c => c.Delivered s) ⟨[.accept], []⟩ completions) :
    (serverLoop.run ⟨[.accept], []⟩ completions).isSome ↔
      serverLoop.Along (fun s c => c.WellFormed s) ⟨[.accept], []⟩ completions :=
  Machine.isSome_run_iff_along (fun _ _ => Server.isSome_complete_iff) hdelivered

/-- The first client is accepted as socket 5. -/
def Completion.firstAccept : Completion := ⟨0, 5, []⟩

/-- The first client may be accepted as any socket. -/
theorem along_firstAccept {condition : Server → Completion → Prop} {c : Completion}
    (haccept : condition ⟨[.accept], []⟩ .firstAccept)
    (hread : condition ⟨[.accept, .read 5], [5]⟩ c) :
    serverLoop.Along condition ⟨[.accept], []⟩ [.firstAccept, c] :=
  .cons haccept rfl ⟨hread, fun _ _ => trivial⟩

/-- What is left to do after the first client was accepted. -/
theorem run_firstAccept (c : Completion) : serverLoop.run ⟨[.accept], []⟩ [.firstAccept, c] =
      Server.complete ⟨[.accept, .read 5], [5]⟩ c := by
  have haccept : serverLoop.next ⟨[.accept], []⟩ .firstAccept =
      some ⟨[.accept, .read 5], [5]⟩ := rfl
  rw [Machine.run, haccept, Option.bind_some, Machine.run]
  exact Option.bind_fun_some _

/-- The first accept is delivered. -/
theorem delivered_firstAccept : Completion.firstAccept.Delivered ⟨[.accept], []⟩ :=
  ⟨by decide, List.not_mem_nil⟩

/-- The server goes on after a first client has sent a `GET`. -/
theorem server_survives_get : (serverLoop.run ⟨[.accept], []⟩ [.firstAccept, .getRead]).isSome := by
  have hmethod : HasMethod Completion.getRead.buffer :=
    ⟨5, by decide, ⟨rfl, rfl⟩, by decide, 71, by decide, by decide⟩
  refine (server_survives_iff ?_).mpr ?_
  · exact along_firstAccept delivered_firstAccept ⟨by decide, rfl, by decide⟩
  · refine along_firstAccept (fun sock hread => ?_) fun _ _ _ => hmethod
    cases hread

/-- A client that sends one byte without a line end stops the server, and so does a client
that sends an empty line. -/
theorem clients_stop_server :
    (serverLoop.Along (fun s c => c.Delivered s) ⟨[.accept], []⟩ [.firstAccept, ⟨1, 1, [65]⟩] ∧
      serverLoop.run ⟨[.accept], []⟩ [.firstAccept, ⟨1, 1, [65]⟩] = none) ∧
    (serverLoop.Along (fun s c => c.Delivered s) ⟨[.accept], []⟩ [.firstAccept, ⟨1, 2, [13, 10]⟩] ∧
      serverLoop.run ⟨[.accept], []⟩ [.firstAccept, ⟨1, 2, [13, 10]⟩] = none) := by
  have hnone : getLine (Completion.buffer ⟨1, 1, [65]⟩) 1024 = none := by
    rw [Option.eq_none_iff_forall_ne_some]
    intro line hline
    obtain ⟨k, -, -, ⟨hk, -⟩, -⟩ := getLineFrom_eq_some_iff.mp hline
    have hmem := List.mem_of_getElem? hk
    simp [Completion.buffer] at hmem
  refine ⟨⟨?_, ?_⟩, ?_, rfl⟩
  · exact along_firstAccept delivered_firstAccept ⟨by decide, rfl, by decide⟩
  · rw [run_firstAccept]
    simp [Server.complete, handleClientRequest, hnone]
  · exact along_firstAccept delivered_firstAccept ⟨by decide, rfl, by decide⟩

end Hack.Uring
