import Hack.Machine
import Mathlib.Data.Set.Function

/-!
# The cookies of the DTLS server

This file embeds `generate_cookie` and `verify_cookie` of `sock-dtls-udp/server/main.c`. A cookie
is the authentication code, under a secret that is drawn once, of the port and the address of the
peer. The two functions build that input on their own. It has six bytes for IPv4 and eighteen for
IPv6, so its length tells the families apart. The authentication code is a parameter.
-/

namespace Hack.Dtls

/-- The peer of a connection, with the bytes of its fields as they stand in memory. -/
inductive Peer
  /-- `AF_INET`. -/
  | inet (port : Vector UInt8 2) (addr : Vector UInt8 4)
  /-- `AF_INET6`. -/
  | inet6 (port : Vector UInt8 2) (addr : Vector UInt8 16)
  /-- Another family. -/
  | other
deriving DecidableEq

/-- The secret, of `COOKIE_SECRET_LENGTH` bytes. -/
abbrev Secret := Vector UInt8 16

/-- The variables that the two functions share. -/
structure State where
  cookieSecret : Secret
  cookieInitialized : Bool

/-- What `RAND_bytes` returns, and what it has written. -/
structure Random where
  result : ℤ
  bytes : Secret

/-- What `OPENSSL_malloc` finds in fresh memory, `none` for `NULL`. -/
abbrev Fresh := Option (ℕ → UInt8)

/-- `OPENSSL_malloc`. -/
def malloc (fresh : Fresh) (length : ℕ) : Option (List UInt8) :=
  fresh.map fun junk => (List.range length).map junk

/-- `memcpy` to an offset of a block. Writing behind its end is a fault. -/
def memcpy (dest : List UInt8) (offset : ℕ) (src : List UInt8) : Option (List UInt8) :=
  if offset + src.length ≤ dest.length then
    some (dest.take offset ++ src ++ dest.drop (offset + src.length))
  else none

/-- The first switch of both functions, with the length of the port added. An unknown family ends
the program. -/
def Peer.length : Peer → Option ℕ
  | .inet _ _ => some (4 + 2)
  | .inet6 _ _ => some (16 + 2)
  | .other => none

/-- The second switch of both functions, with the offset at which each family has its address. -/
def Peer.fill (offset offset6 : ℕ) (buffer : List UInt8) : Peer → Option (List UInt8)
  | .inet port addr =>
    (memcpy buffer 0 port.toList).bind fun buffer => memcpy buffer offset addr.toList
  | .inet6 port addr =>
    (memcpy buffer 0 port.toList).bind fun buffer => memcpy buffer offset6 addr.toList
  | .other => none

/-- `sizeof(peer.s4.sin_port)`. -/
def sizeofSinPort : ℕ := 2

/-- `sizeof(in_port_t)`. -/
def sizeofInPort : ℕ := 2

/-- The second switch of `generate_cookie`. -/
def Peer.generateBuffer (buffer : List UInt8) (peer : Peer) : Option (List UInt8) :=
  peer.fill sizeofSinPort sizeofInPort buffer

/-- The second switch of `verify_cookie`. -/
def Peer.verifyBuffer (buffer : List UInt8) (peer : Peer) : Option (List UInt8) :=
  peer.fill sizeofInPort sizeofInPort buffer

variable (hmac : Secret → List UInt8 → List UInt8)

/-- `generate_cookie`, with the cookie if it returns 1 and `none` inside if it returns 0. -/
def State.generateCookie (s : State) (random : Random) (fresh : Fresh) (peer : Peer) :
    Option (State × Option (List UInt8)) :=
  if !s.cookieInitialized ∧ random.result = 0 then
    some ({ s with cookieSecret := random.bytes }, none)
  else
    let s := if s.cookieInitialized then s else ⟨random.bytes, true⟩
    peer.length.bind fun length =>
      match malloc fresh length with
      | none => some (s, none)
      | some buffer =>
        (peer.generateBuffer buffer).map fun buffer => (s, some (hmac s.cookieSecret buffer))

/-- `verify_cookie`. -/
def State.verifyCookie (s : State) (fresh : Fresh) (peer : Peer) (cookie : List UInt8) : Option ℕ :=
  if !s.cookieInitialized then some 0
  else
    peer.length.bind fun length =>
      match malloc fresh length with
      | none => some 0
      | some buffer =>
        (peer.verifyBuffer buffer).map fun buffer =>
          let result := hmac s.cookieSecret buffer
          if cookie.length = result.length ∧ cookie.take result.length = result then 1 else 0

/-- The calls of the library. -/
inductive Call
  | generate (random : Random) (fresh : Fresh) (peer : Peer)
  | verify (fresh : Fresh) (peer : Peer) (cookie : List UInt8)

/-- The server under any calls of the two functions. -/
def cookies : Machine State Call where
  start s := s.cookieInitialized = false
  next s
    | .generate random fresh peer => (s.generateCookie hmac random fresh peer).map Prod.fst
    | .verify fresh peer cookie => (s.verifyCookie hmac fresh peer cookie).map fun _ => s

/-- The cookie that a call produces, with its peer. -/
def produces (s : State) : Call → List (Peer × List UInt8)
  | .generate random fresh peer =>
    ((s.generateCookie hmac random fresh peer).bind fun r => r.2.map fun cookie =>
      (peer, cookie)).toList
  | .verify _ _ _ => []

/-- The input of the authentication code. -/
def Peer.macInput : Peer → List UInt8
  | .inet port addr => port.toList ++ addr.toList
  | .inet6 port addr => port.toList ++ addr.toList
  | .other => []

variable {hmac} {s s' : State} {random : Random} {fresh : Fresh} {p q : Peer} {cookie : List UInt8}
  {log : List (Peer × List UInt8)} {buffer : List UInt8} {length : ℕ}

/-- Copying two parts one behind the other fills a block of their length. -/
theorem memcpy_memcpy {first second : List UInt8}
    (hlength : buffer.length = first.length + second.length) :
    ((memcpy buffer 0 first).bind fun buffer => memcpy buffer first.length second) =
      some (first ++ second) := by
  have hfirst : memcpy buffer 0 first = some (first ++ buffer.drop first.length) := by
    rw [memcpy, if_pos (by omega)]
    simp
  have hrest : (first ++ buffer.drop first.length).length = first.length + second.length := by
    rw [List.length_append, List.length_drop]
    omega
  rw [hfirst, Option.bind_some, memcpy, if_pos hrest.ge, List.take_left,
    List.drop_eq_nil_of_le hrest.le, List.append_nil]

/-- Fresh memory has the size that was asked for. -/
theorem length_of_malloc (h : malloc fresh length = some buffer) : buffer.length = length := by
  obtain ⟨junk, -, rfl⟩ := Option.map_eq_some_iff.mp h
  simp

/-- Both functions build the same input in a block of the length they compute. -/
theorem Peer.fill_eq (hpeer : p.length = some length) (hlength : buffer.length = length) :
    p.fill 2 2 buffer = some p.macInput := by
  cases p with
  | inet port addr =>
    cases hpeer
    have hfill := @memcpy_memcpy buffer port.toList addr.toList (by simp [hlength])
    rwa [Vector.length_toList] at hfill
  | inet6 port addr =>
    cases hpeer
    have hfill := @memcpy_memcpy buffer port.toList addr.toList (by simp [hlength])
    rwa [Vector.length_toList] at hfill
  | other => cases hpeer

/-- The input has the length that was computed for it. -/
theorem Peer.length_macInput (hpeer : p.length = some length) : p.macInput.length = length := by
  cases p with
  | inet port addr =>
    cases hpeer
    simp [Peer.macInput]
  | inet6 port addr =>
    cases hpeer
    simp [Peer.macInput]
  | other => cases hpeer

/-- The input determines the family, the port, and the address. -/
theorem Peer.macInput_inj {m n : ℕ} (hp : p.length = some m) (hq : q.length = some n)
    (h : p.macInput = q.macInput) : p = q := by
  have hmn : m = n := by rw [← Peer.length_macInput hp, h, Peer.length_macInput hq]
  subst hmn
  cases p with
  | inet port addr =>
    cases q with
    | inet port' addr' =>
      obtain ⟨hport, haddr⟩ := List.append_inj h (by simp)
      rw [Vector.toList_inj.mp hport, Vector.toList_inj.mp haddr]
    | inet6 port' addr' => cases hp; cases hq
    | other => cases hq
  | inet6 port addr =>
    cases q with
    | inet port' addr' => cases hp; cases hq
    | inet6 port' addr' =>
      obtain ⟨hport, haddr⟩ := List.append_inj h (by simp)
      rw [Vector.toList_inj.mp hport, Vector.toList_inj.mp haddr]
    | other => cases hq
  | other => cases hp

/-- A cookie that belongs to its peer under the current secret. -/
structure Issued (hmac : Secret → List UInt8 → List UInt8) (s : State) (p : Peer)
    (cookie : List UInt8) : Prop where
  initialized : s.cookieInitialized = true
  known : p.length.isSome
  cookie_eq : cookie = hmac s.cookieSecret p.macInput

/-- Generating keeps a secret that is there, and what it produces belongs to the peer. -/
theorem generateCookie_spec {produced : Option (List UInt8)}
    (h : s.generateCookie hmac random fresh p = some (s', produced)) :
    (s.cookieInitialized = true → s' = s) ∧ ∀ cookie ∈ produced, Issued hmac s' p cookie := by
  unfold State.generateCookie at h
  split at h
  · rename_i hrandom
    cases h
    exact ⟨fun hinit => by simp [hinit] at hrandom, by simp⟩
  · -- From here on there is a secret, drawn before or just now.
    generalize hdrawn : (if s.cookieInitialized = true then s else ⟨random.bytes, true⟩) = s₁ at h
    have hkept : s.cookieInitialized = true → s₁ = s := fun hinit => by rw [← hdrawn, if_pos hinit]
    have hinit₁ : s₁.cookieInitialized = true := by
      rw [← hdrawn]
      split_ifs with hinit
      · exact hinit
      · rfl
    obtain ⟨length, hlength, h⟩ := Option.bind_eq_some_iff.mp h
    cases hmalloc : malloc fresh length with
    | none =>
      rw [hmalloc] at h
      cases h
      exact ⟨hkept, by simp⟩
    | some buffer =>
      have hfill : p.generateBuffer buffer = some p.macInput :=
        Peer.fill_eq hlength (length_of_malloc hmalloc)
      simp only [hmalloc, hfill, Option.map_some] at h
      cases h
      refine ⟨hkept, ?_⟩
      rintro cookie ⟨⟩
      exact ⟨hinit₁, by simp [hlength], rfl⟩

/-- Before the secret is drawn, no cookie is accepted. -/
theorem verifyCookie_of_not_initialized (hinit : s.cookieInitialized = false) :
    s.verifyCookie hmac fresh q cookie = some 0 := by
  simp [State.verifyCookie, hinit]

/-- After that, a cookie is accepted if it is the code of the peer and there is memory for the
input. Otherwise it is refused, and an unknown family ends the program. -/
theorem verifyCookie_eq (hinit : s.cookieInitialized = true) :
    s.verifyCookie hmac fresh q cookie = q.length.map fun _ =>
      if fresh.isSome ∧ cookie = hmac s.cookieSecret q.macInput then 1 else 0 := by
  unfold State.verifyCookie
  rw [if_neg (by simp [hinit])]
  cases hlength : q.length with
  | none => rfl
  | some length =>
    cases fresh with
    | none => simp [malloc]
    | some junk =>
      have hfill : q.verifyBuffer ((List.range length).map junk) = some q.macInput :=
        Peer.fill_eq hlength (by simp)
      simp only [Option.bind_some, malloc, Option.map_some, hfill, Option.isSome_some, true_and]
      have hequal : cookie.length = (hmac s.cookieSecret q.macInput).length ∧
          cookie.take (hmac s.cookieSecret q.macInput).length = hmac s.cookieSecret q.macInput ↔
            cookie = hmac s.cookieSecret q.macInput := by
        constructor
        · rintro ⟨hsize, htake⟩
          rwa [← hsize, List.take_length] at htake
        · rintro rfl
          exact ⟨rfl, List.take_length⟩
      simp only [hequal]

/-- Every cookie that was produced belongs to its peer, after any calls. -/
theorem issued_of_reachable
    (hreach : ((cookies hmac).observed (produces hmac)).Reachable (s, log)) :
    ∀ p cookie, (p, cookie) ∈ log → Issued hmac s p cookie := by
  refine hreach.observed_invariant
    (fun s log => ∀ p cookie, (p, cookie) ∈ log → Issued hmac s p cookie) ?_ ?_
  · intro s hstart p cookie hmem
    cases hmem
  · intro s log call s' hissued hcond hstep p cookie hmem
    rw [List.mem_append] at hmem
    cases call with
    | verify fresh q cookie' =>
      obtain ⟨result, -, rfl⟩ := Option.map_eq_some_iff.mp hstep
      exact hissued p cookie (by simpa [produces] using hmem)
    | generate random fresh q =>
      obtain ⟨⟨s', produced⟩, hgenerate, rfl⟩ := Option.map_eq_some_iff.mp hstep
      obtain ⟨hkept, hproduced⟩ := generateCookie_spec hgenerate
      rcases hmem with hold | hnew
      · have hbefore := hissued p cookie hold
        rwa [← hkept hbefore.initialized] at hbefore
      · simp only [produces, hgenerate, Option.bind_some, Option.mem_toList, Option.map_eq_some_iff,
          Prod.mk.injEq] at hnew
        obtain ⟨cookie', hcookie', rfl, rfl⟩ := hnew
        exact hproduced cookie' hcookie'

/-- After any calls, `verify_cookie` returns 1 for a cookie that was produced for a peer and called
for another one of a known family exactly when both have the same family, port, and address, and
there is memory for the input. Otherwise it returns 0, as it does for every cookie before the secret
is drawn. -/
theorem cookie_binds_peer (hreach : ((cookies hmac).observed (produces hmac)).Reachable (s, log)) :
    (∀ p cookie, (p, cookie) ∈ log → ∀ q fresh,
      Set.InjOn (hmac s.cookieSecret) {p.macInput, q.macInput} →
        s.verifyCookie hmac fresh q cookie = q.length.map fun _ =>
          if p = q ∧ fresh.isSome then 1 else 0) ∧
    (s.cookieInitialized = false → ∀ q fresh cookie,
      s.verifyCookie hmac fresh q cookie = some 0) := by
  refine ⟨fun p cookie hmem q fresh hinj => ?_,
    fun hinit q fresh cookie => verifyCookie_of_not_initialized hinit⟩
  obtain ⟨hinit, hp, rfl⟩ := issued_of_reachable hreach p cookie hmem
  rw [verifyCookie_eq hinit]
  cases hq : q.length with
  | none => rfl
  | some n =>
    obtain ⟨m, hm⟩ := Option.isSome_iff_exists.mp hp
    have hequal : hmac s.cookieSecret p.macInput = hmac s.cookieSecret q.macInput ↔ p = q :=
      ⟨fun heq => Peer.macInput_inj hm hq (hinj (by simp) (by simp) heq), fun heq => by rw [heq]⟩
    simp only [hequal, and_comm]

/-- A peer. -/
def localhost : Peer := .inet #v[0x1f, 0x90] #v[127, 0, 0, 1]

/-- The state after a secret of zero bytes was drawn. -/
def drawn : State := ⟨Vector.replicate 16 0, true⟩

/-- With the input itself in the place of its authentication code, a cookie is produced. -/
theorem reachable_drawn :
    ((cookies fun _ input => input).observed (produces fun _ input => input)).Reachable
      (drawn, [(localhost, localhost.macInput)]) := by
  have hstart : ((cookies fun _ input => input).observed (produces fun _ input => input)).Reachable
      (⟨Vector.replicate 16 0, false⟩, []) := .start ⟨rfl, rfl⟩
  have hrun : ((cookies fun _ input => input).observed (produces fun _ input => input)).run
      (⟨Vector.replicate 16 0, false⟩, [])
      [.generate ⟨1, Vector.replicate 16 0⟩ (some fun _ => 0) localhost] =
        some (drawn, [(localhost, localhost.macInput)]) := rfl
  exact hstart.of_run hrun

/-- The cookie is accepted for its peer. -/
theorem cookie_binds_peer_localhost :
    drawn.verifyCookie (fun _ input => input) (some fun _ => 0) localhost localhost.macInput =
      some 1 :=
  (cookie_binds_peer reachable_drawn).1 localhost localhost.macInput (by simp) localhost
    (some fun _ => 0) (Function.injective_id.injOn)

/-- Without memory for the input, the cookie is refused for its own peer. -/
theorem cookie_refused_without_memory :
    ((cookies fun _ input => input).observed (produces fun _ input => input)).Reachable
        (drawn, [(localhost, localhost.macInput)]) ∧
      drawn.verifyCookie (fun _ input => input) none localhost localhost.macInput = some 0 :=
  ⟨reachable_drawn, rfl⟩

end Hack.Dtls
