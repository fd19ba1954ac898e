import Hack.Xsk.Ports
import Mathlib.Data.List.Induction
import Mathlib.Data.Nat.Bitwise

/-!
# The forwarder thread without `poll`

This file embeds `thread_func` of `ebpf-xdp/xsk/af_rxtx.c`, which goes around its ports without
waiting. Instead of comparing the index with the number of ports it masks it with that number less
one. The index then goes around the largest power of two that divides the number of ports, so that
the ports behind it are never served unless the number is a power of two itself.
-/

namespace Hack.Xsk

open Function

/-- The loop over the packets of a burst: the bursts that are given to `port_tx_burst`, and what is
left in `burst_tx`. -/
def sendPackets (maxBurstTx : ℕ) (btx : List Desc) : List Desc → List (List Desc) × List Desc
  | [] => ([], btx)
  | desc :: brx =>
    if (btx ++ [desc]).length = maxBurstTx then
      let (calls, btx') := sendPackets maxBurstTx [] brx
      ((btx ++ [desc]) :: calls, btx')
    else sendPackets maxBurstTx (btx ++ [desc]) brx

/-- The variables of `thread_func`: the index, the first `n_pkts` entries of each `burst_tx`, and
the bursts that each index has given to `port_tx_burst`. -/
structure ThreadFunc where
  i : UInt32
  burstTx : ℕ → List Desc
  calls : ℕ → List (List Desc)

/-- A thread that has not started. -/
def ThreadFunc.initial : ThreadFunc := ⟨0, fun _ => [], fun _ => []⟩

/-- A round of the loop, in which `port_rx_burst` returns a burst. -/
def ThreadFunc.round (maxBurstTx : ℕ) (nPortsRx : UInt32) (t : ThreadFunc) (brx : List Desc) :
    ThreadFunc :=
  let i := (t.i + 1) &&& (nPortsRx - 1)
  if brx.length = 0 then { t with i := i }
  else
    let (calls, btx) := sendPackets maxBurstTx (t.burstTx t.i.toNat) brx
    ⟨i, update t.burstTx t.i.toNat btx,
      update t.calls t.i.toNat (t.calls t.i.toNat ++ calls)⟩

/-- The rounds until the thread is told to quit. -/
def threadFunc (maxBurstTx : ℕ) (nPortsRx : UInt32) (bursts : List (List Desc)) : ThreadFunc :=
  bursts.foldl (ThreadFunc.round maxBurstTx nPortsRx) .initial

/-- The packets of every round whose number leaves a remainder. -/
def receivedAt (period j : ℕ) (bursts : List (List Desc)) : List Desc :=
  (bursts.zipIdx.filter fun burst => burst.2 % period = j).flatMap Prod.fst

/-! ### The index -/

/-- The mask keeps the bits below the lowest one of the number of ports. -/
theorem succ_and_pred {v m i : ℕ} (hm : Odd m) (hi : i < 2 ^ v) :
    (i + 1) &&& (2 ^ v * m - 1) = (i + 1) % 2 ^ v := by
  obtain ⟨k, rfl⟩ := hm
  have hpow : 0 < 2 ^ v := Nat.two_pow_pos v
  have hnext : i + 1 < 2 ^ (v + 1) := by
    rw [pow_succ]
    omega
  -- The mask has the `v` lowest bits, and it does not have the next one.
  have hmask : (2 ^ v * (2 * k + 1) - 1) % 2 ^ (v + 1) = 2 ^ v - 1 := by
    have hsplit : 2 ^ v * (2 * k + 1) - 1 = 2 ^ (v + 1) * k + (2 ^ v - 1) := by
      rw [Nat.mul_add, Nat.mul_one, pow_succ, Nat.mul_assoc, Nat.add_sub_assoc hpow]
    rw [hsplit, Nat.mul_add_mod, Nat.mod_eq_of_lt]
    rw [pow_succ]
    omega
  have hlt : (i + 1) &&& (2 ^ v * (2 * k + 1) - 1) < 2 ^ (v + 1) :=
    lt_of_le_of_lt Nat.and_le_left hnext
  rw [← Nat.mod_eq_of_lt hlt, Nat.and_mod_two_pow, hmask, Nat.mod_eq_of_lt hnext,
    Nat.and_two_pow_sub_one_eq_mod]

section Index

variable {nPortsRx : UInt32} {v m : ℕ} (hports : nPortsRx.toNat = 2 ^ v * m) (hm : Odd m)

include hports hm

/-- The next index of the loop. -/
theorem toNat_next {i : UInt32} (hi : i.toNat < 2 ^ v) :
    ((i + 1) &&& (nPortsRx - 1)).toNat = (i.toNat + 1) % 2 ^ v := by
  have hpos : 0 < m := Nat.pos_of_ne_zero (by rintro rfl; simp at hm)
  have hle : 2 ^ v ≤ nPortsRx.toNat := by
    rw [hports]
    exact Nat.le_mul_of_pos_right _ hpos
  have hlt := nPortsRx.toNat_lt
  have hone : (1 : UInt32) ≤ nPortsRx := UInt32.le_iff_toNat_le.mpr (by
    change 1 ≤ nPortsRx.toNat
    omega)
  have hadd : (i + 1).toNat = i.toNat + 1 := by
    rw [UInt32.toNat_add]
    change (i.toNat + 1) % 2 ^ 32 = i.toNat + 1
    omega
  rw [UInt32.toNat_and, hadd, UInt32.toNat_sub_of_le _ _ hone, hports]
  exact succ_and_pred hm hi

end Index

/-! ### The packets -/

section Packets

variable {maxBurstTx : ℕ}

/-- A port was served: what came from it has been given away in full bursts, except for less than
one burst. -/
structure Served (maxBurstTx : ℕ) (received : List Desc) (calls : List (List Desc))
    (btx : List Desc) : Prop where
  packets : calls.flatten ++ btx = received
  full : ∀ call ∈ calls, call.length = maxBurstTx
  left : btx.length < maxBurstTx

/-- The loop over a burst keeps every packet and its place. -/
theorem sendPackets_flatten (btx brx : List Desc) :
    (sendPackets maxBurstTx btx brx).1.flatten ++ (sendPackets maxBurstTx btx brx).2 =
      btx ++ brx := by
  induction brx generalizing btx with
  | nil => simp [sendPackets]
  | cons desc brx ih =>
    rw [sendPackets]
    split_ifs with hfull
    · have hrest := ih []
      simp only [List.flatten_cons, List.append_assoc]
      rw [hrest]
      simp
    · rw [ih, List.append_assoc]
      rfl

/-- Only full bursts are given away, and what is left is not full. -/
theorem sendPackets_full (hmax : 0 < maxBurstTx) {btx : List Desc} (hbtx : btx.length < maxBurstTx)
    (brx : List Desc) :
    (∀ call ∈ (sendPackets maxBurstTx btx brx).1, call.length = maxBurstTx) ∧
      (sendPackets maxBurstTx btx brx).2.length < maxBurstTx := by
  induction brx generalizing btx with
  | nil => exact ⟨by simp [sendPackets], hbtx⟩
  | cons desc brx ih =>
    rw [sendPackets]
    split_ifs with hfull
    · obtain ⟨hcalls, hleft⟩ := @ih [] hmax
      exact ⟨List.forall_mem_cons.mpr ⟨hfull, hcalls⟩, hleft⟩
    · refine ih ?_
      rw [List.length_append, List.length_singleton] at hfull ⊢
      omega

/-- One more burst comes from a port. -/
theorem Served.sendPackets {received btx : List Desc} {calls : List (List Desc)}
    (h : Served maxBurstTx received calls btx) (brx : List Desc) :
    Served maxBurstTx (received ++ brx) (calls ++ (sendPackets maxBurstTx btx brx).1)
      (sendPackets maxBurstTx btx brx).2 := by
  obtain ⟨hfull, hleft⟩ := sendPackets_full (Nat.zero_lt_of_lt h.left) h.left brx
  refine ⟨?_, List.forall_mem_append.mpr ⟨h.full, hfull⟩, hleft⟩
  rw [List.flatten_append, List.append_assoc, sendPackets_flatten, ← List.append_assoc, h.packets]

end Packets

/-! ### Whole runs -/

/-- What is received at an index with one more round. -/
theorem receivedAt_concat (period j : ℕ) (bursts : List (List Desc)) (brx : List Desc) :
    receivedAt period j (bursts ++ [brx]) =
      receivedAt period j bursts ++ if bursts.length % period = j then brx else [] := by
  rw [receivedAt, List.zipIdx_append, List.filter_append, List.flatMap_append]
  congr 1
  by_cases hj : bursts.length % period = j
  · simp [hj]
  · simp [hj]

/-- The state of the thread after some rounds. -/
structure ThreadFunc.Inv (maxBurstTx period : ℕ) (bursts : List (List Desc)) (t : ThreadFunc) :
    Prop where
  index : t.i.toNat = bursts.length % period
  served : ∀ j, Served maxBurstTx (receivedAt period j bursts) (t.calls j) (t.burstTx j)

section Runs

variable {maxBurstTx : ℕ} {nPortsRx : UInt32} {v m : ℕ}

/-- One round. -/
theorem ThreadFunc.Inv.round (hports : nPortsRx.toNat = 2 ^ v * m) (hm : Odd m)
    {bursts : List (List Desc)} {t : ThreadFunc} (h : t.Inv maxBurstTx (2 ^ v) bursts)
    (brx : List Desc) :
    (t.round maxBurstTx nPortsRx brx).Inv maxBurstTx (2 ^ v) (bursts ++ [brx]) := by
  have hindex : ((t.i + 1) &&& (nPortsRx - 1)).toNat = (bursts ++ [brx]).length % 2 ^ v := by
    have hlt : t.i.toNat < 2 ^ v := by
      rw [h.index]
      exact Nat.mod_lt _ (Nat.two_pow_pos v)
    rw [toNat_next hports hm hlt, h.index, List.length_append, List.length_singleton,
      Nat.mod_add_mod]
  rw [ThreadFunc.round]
  dsimp only
  split_ifs with hempty
  · obtain rfl := List.length_eq_zero_iff.mp hempty
    refine ⟨hindex, fun j => ?_⟩
    rw [receivedAt_concat, ite_self, List.append_nil]
    exact h.served j
  · refine ⟨hindex, fun j => ?_⟩
    rw [receivedAt_concat, ← h.index]
    by_cases hj : j = t.i.toNat
    · subst hj
      simp only [update_self, if_true]
      exact (h.served _).sendPackets brx
    · rw [if_neg fun heq => hj heq.symm, List.append_nil]
      simp only [update_of_ne hj]
      exact h.served j

/-- Any number of rounds. -/
theorem threadFunc_inv (hports : nPortsRx.toNat = 2 ^ v * m) (hm : Odd m) (hmax : 0 < maxBurstTx)
    (bursts : List (List Desc)) :
    (threadFunc maxBurstTx nPortsRx bursts).Inv maxBurstTx (2 ^ v) bursts := by
  induction bursts using List.reverseRecOn with
  | nil => exact ⟨(Nat.zero_mod _).symm, fun _ => ⟨rfl, fun _ h => absurd h List.not_mem_nil, hmax⟩⟩
  | append_singleton bursts brx ih =>
    rw [threadFunc, List.foldl_append]
    exact ih.round hports hm brx

/-- **The ports that are served.** Let the number of ports be a power of two times an odd number.
The thread serves its first ports in turn, as many as the power of two, and forwards what it gets
from each one in order and in full bursts only. It gets to every port exactly when the number of
ports is the power of two. -/
theorem threadFunc_serves (hports : nPortsRx.toNat = 2 ^ v * m) (hm : Odd m)
    (hmax : 0 < maxBurstTx) :
    (∀ bursts, (threadFunc maxBurstTx nPortsRx bursts).i.toNat = bursts.length % 2 ^ v) ∧
    (∀ bursts j, Served maxBurstTx (receivedAt (2 ^ v) j bursts)
      ((threadFunc maxBurstTx nPortsRx bursts).calls j)
      ((threadFunc maxBurstTx nPortsRx bursts).burstTx j)) ∧
    ((∀ j < nPortsRx.toNat, ∃ bursts, (threadFunc maxBurstTx nPortsRx bursts).i.toNat = j) ↔
      m = 1) := by
  have hinv := fun bursts => threadFunc_inv hports hm hmax bursts
  refine ⟨fun bursts => (hinv bursts).index, fun bursts => (hinv bursts).served,
    fun hserved => ?_, fun hone j hj => ?_⟩
  · -- The port behind the first ones would have to be served.
    by_contra hne
    have hpos : 0 < m := Nat.pos_of_ne_zero (by rintro rfl; simp at hm)
    have hlt : 2 ^ v < nPortsRx.toNat := by
      rw [hports]
      exact lt_mul_of_one_lt_right (Nat.two_pow_pos v) (by omega)
    obtain ⟨bursts, hindex⟩ := hserved _ hlt
    have hmod := Nat.mod_lt bursts.length (Nat.two_pow_pos v)
    rw [(hinv bursts).index] at hindex
    omega
  · refine ⟨List.replicate j [], ?_⟩
    rw [(hinv _).index, List.length_replicate]
    rw [hports, hone, Nat.mul_one] at hj
    exact Nat.mod_eq_of_lt hj

/-- A thread with six ports serves two of them. -/
theorem threadFunc_serves_six : (6 : UInt32).toNat = 2 ^ 1 * 3 ∧ Odd 3 ∧ 0 < 64 ∧
    ∃ j < 6, ∀ bursts, (threadFunc 64 6 bursts).i.toNat ≠ j := by
  have hports : (6 : UInt32).toNat = 2 ^ 1 * 3 := rfl
  have hodd : Odd 3 := ⟨1, rfl⟩
  refine ⟨hports, hodd, by decide, 2, by decide, fun bursts hindex => ?_⟩
  have hmod := (threadFunc_serves hports hodd (show 0 < 64 by decide)).1 bursts
  omega

end Runs

end Hack.Xsk
