import Hack.Machine
import Hack.Tls.Registry

/-!
# How often a channel is freed

A run of the channel table is followed together with what it should be: the channels that
are registered, those whose registration was released, and all that were ever registered.
`release_tlsch` frees every entry of its socket up to and including the one at the head,
and moves the head down. That is the entry of its own registration, and nothing else, when
the channel registered last is released and the entry behind it is not an old one of the
same descriptor. Released in another order, channels stay behind in the scanned part of the
array or are overwritten there.
-/

namespace Hack.Tls

/-- A run of the table: the table, the channels that are registered, those whose
registration was released, in that order, and all that were registered. -/
structure TlsRun where
  table : TlsTable
  registry : Registry
  released : List TlsChannel
  registrations : List TlsChannel

/-- The run at program start. -/
def TlsRun.initial : TlsRun := ⟨.initial, [], [], []⟩

/-- The run after one operation. -/
@[simp] def TlsRun.step (run : TlsRun) (op : TlsOp) : TlsRun where
  table := run.table.step op
  registry := run.registry.step op
  released := match op with
    | .set _ => run.released
    | .release sock => run.released ++ run.registry.filter fun ch => ch.sock = sock
  registrations := match op with
    | .set ch => run.registrations ++ [ch]
    | .release _ => run.registrations

/-- Runs of the table. -/
def tlsMachine : Machine TlsRun TlsOp where
  start run := run = .initial
  next run op := some (run.step op)

/-- What the callers promise: a socket is registered only while it is not, and never more
than `MAX_CONN - 1` are, and only a registered socket is released. -/
def Registry.Allows (reg : Registry) : TlsOp → Prop
  | .set ch => (∀ c ∈ reg, c.sock ≠ ch.sock) ∧ reg.length + 1 ≤ maxConn - 1
  | .release sock => ∃ c ∈ reg, c.sock = sock

/-- The condition on an operation: the channel released is the one registered last, and the
entry at the head is not one of the same descriptor. -/
def TlsRun.ReleasesLast (run : TlsRun) : TlsOp → Prop
  | .set _ => True
  | .release sock => run.registry.getLast?.map TlsChannel.sock = some sock ∧
      run.table.clientCtx[run.table.tlschHead.toNat]?.map TlsChannel.sock ≠ some sock

instance (reg : Registry) (op : TlsOp) : Decidable (reg.Allows op) :=
  match op with
  | .set ch => inferInstanceAs
      (Decidable ((∀ c ∈ reg, c.sock ≠ ch.sock) ∧ reg.length + 1 ≤ maxConn - 1))
  | .release sock => inferInstanceAs (Decidable (∃ c ∈ reg, c.sock = sock))

instance (run : TlsRun) (op : TlsOp) : Decidable (run.ReleasesLast op) :=
  match op with
  | .set _ => .isTrue trivial
  | .release sock => inferInstanceAs
      (Decidable (run.registry.getLast?.map TlsChannel.sock = some sock ∧
        run.table.clientCtx[run.table.tlschHead.toNat]?.map TlsChannel.sock ≠ some sock))

/-- The array begins with the registered channels, the head is behind them, and exactly the
released channels were freed. -/
structure TlsRun.Aligned (run : TlsRun) : Prop where
  array : ∃ behind, run.table.clientCtx = run.registry ++ behind
  head : run.table.tlschHead = run.registry.length
  size : run.table.clientCtx.length = maxConn
  room : run.registry.length < maxConn
  distinct : (run.registry.map TlsChannel.sock).Nodup
  freed : run.table.freed = run.released
  perm : (run.released ++ run.registry).Perm run.registrations

variable {run : TlsRun}

/-- The run starts aligned. -/
theorem TlsRun.Aligned.initial : TlsRun.initial.Aligned where
  array := ⟨_, rfl⟩
  head := rfl
  size := List.length_replicate
  room := by decide
  distinct := List.nodup_nil
  freed := rfl
  perm := .nil

/-- A registration that is allowed keeps the run aligned. -/
theorem TlsRun.Aligned.set {ch : TlsChannel} (h : run.Aligned)
    (hallows : run.registry.Allows (.set ch)) : (run.step (.set ch)).Aligned := by
  obtain ⟨hnew, hroom⟩ := hallows
  obtain ⟨behind, harray⟩ := h.array
  have hhead := h.head
  have hsize := h.size
  have hlt := h.room
  have hfree : run.table.tlschHead + 1 ≠ (maxConn : ℤ) := by
    simp only [maxConn] at hroom ⊢
    omega
  -- There is an entry at the head, and it is overwritten.
  obtain ⟨old, behind, rfl⟩ : ∃ old rest, behind = old :: rest := by
    cases behind with
    | nil =>
      rw [harray, List.append_nil] at hsize
      omega
    | cons old rest => exact ⟨old, rest, rfl⟩
  have htable : run.table.step (.set ch) = { run.table with
      clientCtx := run.registry ++ ch :: behind
      tlschHead := run.table.tlschHead + 1 } := by
    rw [TlsTable.step_set hfree, harray, hhead, Int.toNat_natCast,
      List.set_append_right _ _ le_rfl, Nat.sub_self, List.set_cons_zero]
  constructor
  · exact ⟨behind, by simp [htable, Registry.step]⟩
  · simp [htable, Registry.step, hhead]
  · rw [harray] at hsize
    simpa [htable] using hsize
  · simp only [maxConn] at hroom ⊢
    simp only [TlsRun.step, Registry.step, List.length_append, List.length_singleton]
    omega
  · simp only [TlsRun.step, Registry.step, List.map_append, List.nodup_append]
    exact ⟨h.distinct, by simp, by simpa using hnew⟩
  · simpa [htable] using h.freed
  · simpa [Registry.step] using h.perm.append_right [ch]

/-- In the registry only the channel registered last has its socket. -/
theorem Registry.filter_last {init : Registry} {last : TlsChannel}
    (hdistinct : ((init ++ [last]).map TlsChannel.sock).Nodup) :
    (init.filter fun ch => ch.sock = last.sock) = [] ∧
      (init ++ [last] : Registry).step (.release last.sock) = init := by
  have hne : ∀ ch ∈ init, ch.sock ≠ last.sock := by
    rw [List.map_append, List.nodup_append] at hdistinct
    intro ch hch
    exact hdistinct.2.2 _ (List.mem_map_of_mem hch) _ (by simp)
  refine ⟨List.filter_eq_nil_iff.mpr fun ch hch => by simpa using hne ch hch, ?_⟩
  simpa [Registry.step] using hne

/-- The release of the channel registered last frees it, and nothing else. -/
theorem TlsRun.Aligned.release {sock : ℤ} (h : run.Aligned)
    (hlast : run.ReleasesLast (.release sock)) : (run.step (.release sock)).Aligned := by
  obtain ⟨hsock, hbehind⟩ := hlast
  obtain ⟨last, hget, rfl⟩ := Option.map_eq_some_iff.mp hsock
  obtain ⟨init, hreg⟩ := List.getLast?_eq_some_iff.mp hget
  obtain ⟨behind, harray⟩ := h.array
  have hdistinct := h.distinct
  rw [hreg] at hdistinct
  obtain ⟨hinit, hstep⟩ := Registry.filter_last hdistinct
  have hhead : run.table.tlschHead = init.length + 1 := by simp [h.head, hreg]
  have hscan : run.table.scanned = init ++ last :: behind.take 1 := by
    rw [TlsTable.scanned, harray, h.head, hreg,
      show (((init ++ [last]).length : ℤ) + 1).toNat = (init ++ [last]).length + 1 by omega,
      List.take_length_add_append, List.append_assoc, List.singleton_append]
  -- The entry at the head is of another descriptor.
  have hnext : (behind.take 1).filter (fun ch => ch.sock = last.sock) = [] := by
    cases behind with
    | nil => rfl
    | cons ch rest =>
      have hentry : run.table.clientCtx[run.table.tlschHead.toNat]? = some ch := by
        rw [harray, h.head, Int.toNat_natCast, List.getElem?_append_right le_rfl, Nat.sub_self,
          List.getElem?_cons_zero]
      rw [hentry] at hbehind
      simpa using hbehind
  have hhits : (run.table.scanned.filter fun ch => ch.sock = last.sock) = [last] := by
    rw [hscan, List.filter_append, hinit, List.filter_cons_of_pos (by simp), hnext]
    rfl
  have htable : run.table.step (.release last.sock) = { run.table with
      tlschHead := run.table.tlschHead - 1
      freed := run.table.freed ++ [last] } := by
    rw [TlsTable.step_release (by simp [hscan]), hhits]
  have hregistry : (run.step (.release last.sock)).registry = init := by
    rw [TlsRun.step, hreg, hstep]
  have hreleased : (run.step (.release last.sock)).released = run.released ++ [last] := by
    simp [hreg, hinit]
  have hlt := h.room
  rw [hreg, List.length_append, List.length_singleton] at hlt
  refine ⟨⟨last :: behind, ?_⟩, ?_, ?_, ?_, ?_, ?_, ?_⟩
  · simp [htable, harray, hreg, hstep]
  · rw [hregistry]
    simp [htable, hhead]
  · simpa [htable] using h.size
  · rw [hregistry]
    omega
  · rw [hregistry]
    rw [List.map_append] at hdistinct
    exact (List.nodup_append.mp hdistinct).1
  · rw [hreleased]
    simp [htable, h.freed]
  · rw [hreleased, hregistry, List.append_assoc]
    have hswap : (run.released ++ ([last] ++ init)).Perm (run.released ++ run.registry) := by
      rw [hreg]
      exact List.perm_append_comm.append_left _
    exact hswap.trans h.perm

/-- **Channels are freed once.** In every run in which only the channel registered last is
released, and only while the entry at the head is not of the same descriptor, exactly the
channels whose registration was released are freed, in that order, so that each `SSL` and
each `SSL_CTX` is freed at most as often as it was registered, and the head counts the
registered channels. -/
theorem channels_freed_by_own_release (hreach : tlsMachine.ReachableUnder
      (fun run op => run.registry.Allows op ∧ run.ReleasesLast op) run) :
    run.table.freed = run.released ∧ (∀ ssl, (run.table.freed.map TlsChannel.ssl).count ssl ≤
        (run.registrations.map TlsChannel.ssl).count ssl) ∧
      (∀ ctx, (run.table.freed.map TlsChannel.ctx).count ctx ≤
        (run.registrations.map TlsChannel.ctx).count ctx) ∧
      run.table.tlschHead = run.registry.length := by
  have hinv : run.Aligned := by
    refine hreach.invariant TlsRun.Aligned ?_ ?_
    · rintro run rfl
      exact .initial
    · rintro run op run' h ⟨hallows, hlast⟩ hnext
      cases hnext
      cases op with
      | set ch => exact h.set hallows
      | release sock => exact h.release hlast
  have hcount : ∀ (field : TlsChannel → ℕ) p, (run.table.freed.map field).count p ≤
      (run.registrations.map field).count p := by
    intro field p
    rw [hinv.freed, ← (hinv.perm.map field).count_eq p, List.map_append, List.count_append]
    omega
  exact ⟨hinv.freed, hcount TlsChannel.ssl, hcount TlsChannel.ctx, hinv.head⟩

/-- Two channels are registered, the second is released, and its socket is registered again. -/
def TlsOp.reusedOnTop : List TlsOp :=
  [.set ⟨5, 100, 200⟩, .set ⟨6, 101, 201⟩, .release 6, .set ⟨6, 102, 202⟩, .release 6, .release 5]

/-- All three channels are freed once. -/
theorem channels_freed_reusedOnTop : ∃ run, tlsMachine.ReachableUnder
        (fun run op => run.registry.Allows op ∧ run.ReleasesLast op) run ∧
      run.registrations = [⟨5, 100, 200⟩, ⟨6, 101, 201⟩, ⟨6, 102, 202⟩] ∧
      run.table.freed = run.released ∧
      (∀ ssl, (run.table.freed.map TlsChannel.ssl).count ssl ≤
        (run.registrations.map TlsChannel.ssl).count ssl) ∧
      (∀ ctx, (run.table.freed.map TlsChannel.ctx).count ctx ≤
        (run.registrations.map TlsChannel.ctx).count ctx) ∧
      run.table.tlschHead = run.registry.length := by
  refine Machine.exists_reachableUnder rfl
    (fun run op => decide (run.registry.Allows op ∧ run.ReleasesLast op))
    (fun _ _ => of_decide_eq_true) TlsOp.reusedOnTop
    (fun run => run.registrations = [⟨5, 100, 200⟩, ⟨6, 101, 201⟩, ⟨6, 102, 202⟩])
    ⟨_, rfl, rfl⟩ ?_
  exact fun run hreach hregistrations =>
    ⟨hregistrations, channels_freed_by_own_release hreach⟩

/-- The channel registered first is released, and its socket is registered again: the new
channel overwrites the second one, and the entry of the first is still scanned. -/
def TlsOp.reusedBelow : List TlsOp :=
  [.set ⟨5, 100, 200⟩, .set ⟨6, 101, 201⟩, .release 5, .set ⟨5, 102, 202⟩, .release 5]

/-- The first channel is freed twice, and after the release of the second one, which finds
no entry, the head counts a channel although none is registered. -/
theorem channel_freed_twice :
    (∃ run, tlsMachine.ReachableUnder (fun run op => run.registry.Allows op) run ∧
      run.released = [⟨5, 100, 200⟩, ⟨5, 102, 202⟩] ∧
      run.table.freed = [⟨5, 100, 200⟩, ⟨5, 100, 200⟩, ⟨5, 102, 202⟩]) ∧
    ∃ run, tlsMachine.ReachableUnder (fun run op => run.registry.Allows op) run ∧
      run.registry = [] ∧ run.table.tlschHead = 1 := by
  have hcheck : ∀ (run : TlsRun) op, decide (run.registry.Allows op) = true →
      run.registry.Allows op := fun _ _ => of_decide_eq_true
  constructor
  · exact Machine.exists_reachableUnder rfl _ hcheck TlsOp.reusedBelow _ ⟨_, rfl, rfl, rfl⟩
      fun _ _ => id
  · exact Machine.exists_reachableUnder rfl _ hcheck (TlsOp.reusedBelow ++ [.release 6]) _
      ⟨_, rfl, rfl, rfl⟩ fun _ _ => id

end Hack.Tls
