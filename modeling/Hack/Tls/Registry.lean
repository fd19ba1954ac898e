import Hack.Tls.Channels
import Mathlib.Data.List.Infix

/-!
# When the channel table is a finite map

The purpose of the table is a finite map from open sockets to their pointers.
The registry is that map, and a run is permitted when it registers only sockets
that are not registered, releases only sockets that are, and never exceeds the
capacity of the table. The table agrees with the registry as long as no channel
is released. The first release already leaves the entry of the closed socket in
the scanned part of the array, so a run refines the map exactly when it contains
no release.
-/

namespace Hack.Tls

/-- A registration or a release of one channel. -/
inductive TlsOp
  /-- `set_tlsch` after an accepted connection. -/
  | set (channel : TlsChannel)
  /-- `release_tlsch` when the connection is closed. -/
  | release (sock : ℤ)

/-- Whether an operation is a release. -/
def TlsOp.isRelease : TlsOp → Bool
  | .set _ => false
  | .release _ => true

/-- The table after one operation. -/
def TlsTable.step (tbl : TlsTable) : TlsOp → TlsTable
  | .set ch => (setTlsch tbl ch.sock ch.ssl ch.ctx).1
  | .release sock => (releaseTlsch tbl sock).1

/-- The abstract map as the list of registered channels. -/
abbrev Registry := List TlsChannel

/-- The registry after one operation. -/
def Registry.step (reg : Registry) : TlsOp → Registry
  | .set ch => reg ++ [ch]
  | .release sock => reg.filter fun ch => ch.sock ≠ sock

/-- The entry of a socket in the abstract map. -/
def Registry.lookup (reg : Registry) (sock : ℤ) : Option TlsChannel :=
  reg.find? fun ch => ch.sock = sock

/-- What the callers promise: a new channel has a positive descriptor that is
not registered and does not consist of `NULL` pointers (`handle_conn` passes the
objects of a finished handshake), the registry never holds more than
`MAX_CONN - 1` channels, and only a registered socket is released. -/
def Registry.Permits (reg : Registry) : TlsOp → Prop
  | .set ch => 0 < ch.sock ∧ (ch.ssl ≠ 0 ∨ ch.ctx ≠ 0) ∧ (∀ c ∈ reg, c.sock ≠ ch.sock) ∧
      reg.length + 1 ≤ maxConn - 1
  | .release sock => ∃ c ∈ reg, c.sock = sock

/-- Every operation of the run is permitted in the registry at its time. -/
def Registry.PermitsRun (reg : Registry) : List TlsOp → Prop
  | [] => True
  | op :: ops => reg.Permits op ∧ (reg.step op).PermitsRun ops

/-- Both lookups return the pointers of the registered channel, and `NULL` for a
socket that is not registered. -/
def Refines (tbl : TlsTable) (reg : Registry) : Prop :=
  ∀ sock > 0, getTlschSsl tbl sock = ((reg.lookup sock).map TlsChannel.ssl).getD 0 ∧
    getTlschCtx tbl sock = ((reg.lookup sock).map TlsChannel.ctx).getD 0

/-- The table refines the map after each step of a run. -/
def RefinesAlong (ops : List TlsOp) : Prop :=
  ∀ done, done <+: ops → Refines (done.foldl TlsTable.step .initial) (done.foldl Registry.step [])

/-- A table that has seen no release: the registered channels in order, followed
by zero entries, with the head at the boundary. -/
structure Packed (tbl : TlsTable) (reg : Registry) : Prop where
  /-- The array begins with the registered channels. -/
  clientCtx_eq : tbl.clientCtx = reg ++ List.replicate (maxConn - reg.length) .zero
  /-- The head counts the registered channels. -/
  tlschHead_eq : tbl.tlschHead = reg.length
  /-- One entry of the array always stays unused. -/
  length_lt : reg.length < maxConn
  /-- Registered descriptors are positive and have a pointer that is not `NULL`. -/
  live : ∀ ch ∈ reg, 0 < ch.sock ∧ (ch.ssl ≠ 0 ∨ ch.ctx ≠ 0)

variable {tbl : TlsTable} {reg : Registry} {ch : TlsChannel}

/-- A registration below the capacity writes the entry at the head. -/
theorem TlsTable.step_set (hroom : tbl.tlschHead + 1 ≠ maxConn) : tbl.step (.set ch) = { tbl with
      clientCtx := tbl.clientCtx.set tbl.tlschHead.toNat ch
      tlschHead := tbl.tlschHead + 1 } := by
  simp only [step, setTlsch, if_neg hroom]

/-- A release that finds its socket moves only the head. -/
theorem TlsTable.step_release (hhit : ch ∈ tbl.scanned) : tbl.step (.release ch.sock) = { tbl with
      tlschHead := tbl.tlschHead - 1
      freed := tbl.freed ++ tbl.scanned.filter fun c => c.sock = ch.sock } := by
  have hne : (tbl.scanned.filter fun c => c.sock = ch.sock) ≠ [] :=
    List.ne_nil_of_mem (List.mem_filter.mpr ⟨hhit, by simp⟩)
  simp only [step, releaseTlsch, if_neg hne]

/-- The table at program start is packed. -/
theorem Packed.initial : Packed .initial [] where
  clientCtx_eq := rfl
  tlschHead_eq := rfl
  length_lt := by decide
  live := by simp

section Packed

variable (hpacked : Packed tbl reg)
include hpacked

/-- A permitted registration keeps the table packed. -/
theorem Packed.set (hpermits : reg.Permits (.set ch)) :
    Packed (tbl.step (.set ch)) (reg.step (.set ch)) := by
  obtain ⟨hsock, hlive, -, hroom⟩ := hpermits
  have hhead := hpacked.tlschHead_eq
  simp only [maxConn] at hroom
  have hfree : tbl.tlschHead + 1 ≠ (maxConn : ℤ) := by
    simp only [maxConn]
    omega
  refine ⟨?_, ?_, ?_, ?_⟩
  · simp only [TlsTable.step_set hfree, Registry.step, hpacked.clientCtx_eq, hhead,
      Int.toNat_natCast, List.length_append, List.length_singleton]
    rw [show maxConn - reg.length = maxConn - (reg.length + 1) + 1 by simp only [maxConn]; omega,
      List.replicate_succ, List.set_append_right _ _ le_rfl, Nat.sub_self, List.set_cons_zero,
      List.append_assoc, List.singleton_append]
  · simp [TlsTable.step_set hfree, Registry.step, hhead]
  · simp only [Registry.step, List.length_append, List.length_singleton, maxConn]
    omega
  · intro c hc
    rcases List.mem_append.mp hc with hc | hc
    · exact hpacked.live c hc
    · rw [List.mem_singleton.mp hc]
      exact ⟨hsock, hlive⟩

/-- The scan of a packed table visits the registered channels and one zero entry. -/
theorem Packed.scanned_eq : tbl.scanned = reg ++ [.zero] := by
  have hlt := hpacked.length_lt
  rw [TlsTable.scanned, hpacked.clientCtx_eq, hpacked.tlschHead_eq,
    show ((reg.length : ℤ) + 1).toNat = reg.length + 1 by omega,
    show maxConn - reg.length = maxConn - reg.length - 1 + 1 by omega, List.replicate_succ,
    List.take_length_add_append, List.take_one, List.head?_cons, Option.toList_some]

/-- A packed table answers every lookup of a positive descriptor as the map does. -/
theorem Packed.refines : Refines tbl reg := by
  intro sock hsock
  have hzero : ([TlsChannel.zero].find? fun ch => ch.sock = sock) = none := by
    simp only [List.find?_singleton, TlsChannel.zero, decide_eq_true_eq]
    rw [if_neg (by omega)]
  simp only [getTlschSsl, getTlschCtx, getTlsch, hpacked.scanned_eq, List.find?_append, hzero,
    Option.or_none, Registry.lookup, and_self]

/-- Releasing a registered channel of a packed table leaves its entry where the
scan still finds it, so the closed socket keeps a pointer that is not `NULL`. -/
theorem Packed.not_refines_release {sock : ℤ} (hpermits : reg.Permits (.release sock)) :
    ¬Refines (tbl.step (.release sock)) (reg.step (.release sock)) := by
  obtain ⟨c, hc, rfl⟩ := hpermits
  intro hrefines
  have hhit : c ∈ tbl.scanned := by simp [hpacked.scanned_eq, hc]
  have hscan : (tbl.step (.release c.sock)).scanned = reg := by
    rw [TlsTable.step_release hhit]
    simp only [TlsTable.scanned, hpacked.clientCtx_eq, hpacked.tlschHead_eq]
    rw [show ((reg.length : ℤ) - 1 + 1).toNat = reg.length by omega, List.take_left]
  have hgone : (reg.step (.release c.sock)).lookup c.sock = none := by
    simp [Registry.step, Registry.lookup]
  obtain ⟨stale, hfind⟩ : ∃ stale, (reg.find? fun ch => ch.sock = c.sock) = some stale := by
    apply Option.isSome_iff_exists.mp
    rw [List.find?_isSome]
    exact ⟨c, hc, by simp⟩
  obtain ⟨hssl, hctx⟩ := hrefines c.sock (hpacked.live c hc).1
  rw [getTlschSsl, getTlsch, hscan, hfind, hgone] at hssl
  rw [getTlschCtx, getTlsch, hscan, hfind, hgone] at hctx
  rcases (hpacked.live stale (List.mem_of_find?_eq_some hfind)).2 with hne | hne
  · exact hne hssl
  · exact hne hctx

/-- From a packed table, the rest of a permitted run refines the map after each
step exactly when it releases nothing. -/
theorem Packed.refines_along_iff {ops : List TlsOp} (hrun : reg.PermitsRun ops) :
    (∀ done, done <+: ops → Refines (done.foldl TlsTable.step tbl) (done.foldl Registry.step reg)) ↔
      ∀ op ∈ ops, op.isRelease = false := by
  induction ops generalizing tbl reg with
  | nil =>
    refine ⟨fun _ => by simp, fun _ done hdone => ?_⟩
    rw [List.prefix_nil.mp hdone]
    exact hpacked.refines
  | cons op ops ih =>
    obtain ⟨hpermits, hrest⟩ := hrun
    cases op with
    | set ch =>
      have hnext := hpacked.set hpermits
      have hset : (TlsOp.set ch).isRelease = false := rfl
      simp only [List.mem_cons, forall_eq_or_imp, hset, true_and]
      rw [← ih hnext hrest]
      constructor
      · intro h done hdone
        exact h (.set ch :: done) (List.cons_prefix_cons.mpr ⟨rfl, hdone⟩)
      · intro h done hdone
        cases done with
        | nil => exact hpacked.refines
        | cons first done =>
          obtain ⟨rfl, htail⟩ := List.cons_prefix_cons.mp hdone
          exact h done htail
    | release sock =>
      constructor
      · intro h
        exact absurd (h [.release sock] (by simp)) (hpacked.not_refines_release hpermits)
      · intro h
        exact absurd (h (.release sock) List.mem_cons_self) (by simp [TlsOp.isRelease])

end Packed

/-- A permitted run of the table refines the finite map after each of its steps
if and only if it never releases a channel. -/
theorem refinesAlong_iff_no_release (ops : List TlsOp) (hrun : Registry.PermitsRun [] ops) :
    RefinesAlong ops ↔ ∀ op ∈ ops, op.isRelease = false :=
  Packed.initial.refines_along_iff hrun

/-- Two registrations form a permitted run along which the table is the map. -/
theorem refinesAlong_two_registrations :
    Registry.PermitsRun [] [.set ⟨5, 100, 200⟩, .set ⟨6, 101, 201⟩] ∧
      RefinesAlong [.set ⟨5, 100, 200⟩, .set ⟨6, 101, 201⟩] := by
  have hrun : Registry.PermitsRun [] [.set ⟨5, 100, 200⟩, .set ⟨6, 101, 201⟩] := by
    simp [Registry.PermitsRun, Registry.Permits, Registry.step, maxConn]
  exact ⟨hrun, (refinesAlong_iff_no_release _ hrun).mpr (by simp [TlsOp.isRelease])⟩

/-- Registering socket 5 and releasing it is a permitted run, after which the
lookup of socket 5 returns the freed pointer instead of `NULL`. -/
theorem tlsch_stale_after_release : ¬∀ ops, Registry.PermitsRun [] ops → RefinesAlong ops := by
  intro h
  have hrun : Registry.PermitsRun [] [.set ⟨5, 100, 200⟩, .release 5] := by
    simp [Registry.PermitsRun, Registry.Permits, Registry.step, maxConn]
  have hssl := (h _ hrun _ List.prefix_rfl 5 (by decide)).1
  exact absurd hssl (by decide)

end Hack.Tls
