import Hack.Dummeth.Delivery

/-!
# Frame sizes and the array of a packet

`dummeth_hw_tx` copies a frame into the array of a packet, which has `ETH_DATA_LEN` bytes, and
compares no lengths. What limits a frame is the MTU of its device, which `dummeth_change_mtu` lets
grow to `ETH_DATA_LEN` and which does not count the Ethernet header. The frames of a device with
the largest MTUs are therefore longer than the array.
-/

namespace Hack.Dummeth

/-- `ETH_HLEN`. -/
def ethHlen : ℕ := 14

/-- `EINVAL`. -/
def einval : ℤ := 22

/-- The MTU that `ether_setup` gives a device. -/
def defaultMtu : ℤ := ethDataLen

/-- `dummeth_change_mtu` of a device with an MTU: what it returns, and the MTU after it. -/
def changeMtu (s : Devices) (d : DevId) (mtu newMtu : ℤ) : Option (ℤ × ℤ) :=
  if newMtu < 68 ∨ 1500 < newMtu then some (-einval, mtu)
  else s.locking d (some (0, newMtu))

/-- An MTU that a device has at first or that `dummeth_change_mtu` accepts. -/
def Settable (mtu : ℤ) : Prop :=
  mtu = defaultMtu ∨ ∃ s d old, changeMtu s d old mtu = some (0, mtu)

/-- The frames that are passed to a device with an MTU. -/
def WithinMtu (mtu : ℤ) (frame : List UInt8) : Prop := (frame.length : ℤ) ≤ mtu + ethHlen

/-- Whatever the states of the driver when `dummeth_xmit` is called with a frame and when
`dummeth_hw_tx` then takes a packet, what it copies fits the array of the packet. -/
def CopyInside (cfg : Config) (frame : List UInt8) : Prop :=
  ∀ (d : DevId) (skb : SkbId) (s₀ s₁ s₂ s₃ : Devices) (choice choice' : Choice)
    (buf copied : List UInt8) (a : Addr),
    step cfg s₀ (.xmitStore d skb frame) choice = some (s₁, [.hwTx d buf]) →
    step cfg s₂ (.hwTx d buf) choice' = some (s₃, [.hwTxFill d copied a]) →
    copied.length ≤ ethDataLen

variable {cfg : Config} {frame buf : List UInt8} {mtu : ℤ} {d : DevId} {a : Addr} {pkt : Packet}
  {s : Devices} {n : ℕ}

/-- Padding and rewriting make no frame too long for a packet. -/
theorem length_sentFrame_le_iff (cfg : Config) (frame : List UInt8) (hn : 60 ≤ n) :
    (sentFrame cfg frame).length ≤ n ↔ frame.length ≤ n := by
  rw [sentFrame, length_rewriteFrame, length_padFrame]
  omega

/-- `dummeth_hw_tx` takes the first packet of the pool. -/
theorem step_hwTx (cfg : Config) (choice : Choice) (hlen : 34 ≤ buf.length)
    (hfree : (s.priv d).locked = false) (hpool : (s.priv d).ppool = some a)
    (hpkt : s.heap.lookup a = some pkt) :
    ∃ s', step cfg s (.hwTx d buf) choice = some (s', [.hwTxFill d (rewriteFrame cfg buf) a]) := by
  simp [step, Nat.not_lt.mpr hlen, Devices.locking, hfree, getTxBuffer, hpool, hpkt]

/-- The copy fits if the frame does, with its header. -/
theorem copyInside_iff : CopyInside cfg frame ↔ frame.length ≤ ethDataLen := by
  rw [← length_sentFrame_le_iff cfg frame (by decide : 60 ≤ ethDataLen)]
  constructor
  · intro h
    have hlong : 34 ≤ (padFrame frame).length := by
      rw [length_padFrame]
      omega
    obtain ⟨s', hstep⟩ := step_hwTx cfg {} hlong (rfl : (Devices.sample.priv .dev0).locked = false)
      rfl rfl
    exact h .dev0 0 .sample _ .sample s' {} {} _ _ _ rfl hstep
  · intro hfits d skb s₀ s₁ s₂ s₃ choice choice' buf copied a hxmit hcopy
    cases transition_of_step hxmit
    cases transition_of_step hcopy
    exact hfits

/-- The MTUs of a device. -/
theorem settable_iff : Settable mtu ↔ 68 ≤ mtu ∧ mtu ≤ 1500 := by
  constructor
  · rintro (rfl | ⟨s, d, old, h⟩)
    · decide
    · by_contra hout
      rw [changeMtu, if_pos (by omega)] at h
      cases h
  · intro hmtu
    refine .inr ⟨.sample, .dev0, mtu, ?_⟩
    rw [changeMtu, if_neg (by omega)]
    rfl

/-- For an MTU that a device can have, the frames that fit a packet are those that have at most
`ETH_DATA_LEN` bytes with their header, all frames fit if the MTU leaves room for the header, and
no copy goes further past the array than a header is long. -/
theorem transmitted_frames_fit_iff (cfg : Config) (hmtu : Settable mtu) :
    (∀ frame, WithinMtu mtu frame → (CopyInside cfg frame ↔ frame.length ≤ ethDataLen)) ∧
      ((∀ frame, WithinMtu mtu frame → CopyInside cfg frame) ↔ mtu + ethHlen ≤ ethDataLen) ∧
      ∀ frame, WithinMtu mtu frame → (sentFrame cfg frame).length ≤ ethDataLen + ethHlen := by
  obtain ⟨-, hmax⟩ := settable_iff.mp hmtu
  refine ⟨fun frame _ => copyInside_iff, ⟨fun hall => ?_, fun hroom frame hframe => ?_⟩,
    fun frame hframe => ?_⟩
  · -- Beyond that MTU, a frame one byte too long for the array is within it.
    by_contra hmore
    have hwithin : WithinMtu mtu (List.replicate (ethDataLen + 1) 0) := by
      rw [WithinMtu, List.length_replicate]
      omega
    have hfits := copyInside_iff.mp (hall _ hwithin)
    rw [List.length_replicate] at hfits
    omega
  · rw [WithinMtu] at hframe
    exact copyInside_iff.mpr (by omega)
  · rw [WithinMtu, ethHlen] at hframe
    rw [length_sentFrame_le_iff cfg frame (by decide), ethDataLen, ethHlen]
    omega

/-- All frames of a device with an MTU of 1486 fit. -/
theorem frames_fit_mtu_1486 :
    Settable 1486 ∧ ∀ frame, WithinMtu 1486 frame → CopyInside .sample frame :=
  ⟨settable_iff.mpr (by decide),
    (transmitted_frames_fit_iff .sample (settable_iff.mpr (by decide))).2.1.mpr (by decide)⟩

/-- With the largest MTU that is accepted, a frame of that size does not fit. -/
theorem full_frame_overruns : changeMtu .sample .dev0 defaultMtu 1500 = some (0, 1500) ∧
      WithinMtu 1500 (List.replicate 1514 0) ∧ ¬ CopyInside .sample (List.replicate 1514 0) := by
  refine ⟨rfl, ?_, ?_⟩
  · rw [WithinMtu, List.length_replicate]
    decide
  · rw [copyInside_iff, List.length_replicate]
    decide

/-! ### Whole runs -/

/-- Every frame passed to `dummeth_xmit` meets a limit, and `dummeth_hw_tx` is called by it only. -/
def FramesMeet (limit : List UInt8 → Prop) : Event → Prop
  | .call (.xmit _ _ frame) => limit frame
  | .call (.hwTx _ _) => False
  | _ => True

/-- The bytes a transmission has up to its copy. -/
def Pc.frameLength : Pc → ℕ
  | .xmitStore _ _ frame => frame.length
  | .hwTx _ buf => buf.length
  | .hwTxFill _ buf _ => buf.length
  | _ => 0

/-- Only padding makes a frame longer. -/
theorem Transition.frameLength_le {s' : Devices} {choice : Choice} {pc : Pc} {pcs : List Pc}
    (htrans : Transition cfg s choice pc s' pcs) (hn : 60 ≤ n) (h : pc.frameLength ≤ n) :
    ∀ pc' ∈ pcs, pc'.frameLength ≤ n := by
  have hinterrupt : ∀ d, (cfg.interrupt d).frameLength = 0 := fun d => by
    rcases cfg.interrupt_cases d with ⟨-, h⟩ | ⟨-, h⟩ <;> rw [h] <;> rfl
  cases htrans with
  | xmitStore => simpa [Pc.frameLength, length_padFrame] using ⟨hn, h⟩
  | getTxBuffer => simpa [Pc.frameLength, length_rewriteFrame] using h
  | releaseStopped | releaseNext | devStop => split_ifs <;> simp [Pc.frameLength]
  | writeRx | timeoutWriteTx | noLockup =>
    exact List.forall_mem_cons.mpr ⟨by simp [hinterrupt], by simp [Pc.frameLength]⟩
  | _ => simp [Pc.frameLength]

/-- If the frames that are passed are bounded, then in every state that is reached so are the
copies, whatever interleaves. -/
theorem copy_le_of_run {start : Devices → Prop} {limit : List UInt8 → Prop} {t : System}
    (hn : 60 ≤ n) (hlimit : ∀ frame, limit frame → frame.length ≤ n)
    (hreach : (driverMachine cfg start).ReachableUnder (fun _ event => FramesMeet limit event) t)
    (hpc : Pc.hwTxFill d buf a ∈ t.pcs) : buf.length ≤ n := by
  have hinv : ∀ pc ∈ t.pcs, pc.frameLength ≤ n := by
    refine hreach.invariant (fun t => ∀ pc ∈ t.pcs, pc.frameLength ≤ n) ?_ ?_
    · rintro ⟨s, threads⟩ ⟨-, hthreads⟩
      cases hthreads
      simp [System.pcs]
    · intro t event t' h hcalls hnext pc hpc
      cases System.move_of_next hnext with
      | @call op _ hpcs =>
        rcases List.mem_cons.mp (hpcs.mem_iff.mp hpc) with rfl | hold
        · cases op with
          | xmit e skb frame => exact hlimit frame hcalls
          | hwTx => exact hcalls.elim
          | _ => exact Nat.zero_le n
        · exact h pc hold
      | run _ hbefore htrans hafter =>
        obtain ⟨hself, hrest⟩ :=
          List.forall_mem_cons.mp fun pc hpc => h pc (hbefore.mem_iff.mpr hpc)
        rcases List.mem_append.mp (hafter.mem_iff.mp hpc) with hnew | hold
        · exact htrans.frameLength_le hn hself pc hnew
        · exact hrest pc hold
  exact hinv _ hpc

/-- In every run in which the frames are within MTUs that a device can have, no copy goes further
past the array than a header is long. -/
theorem copy_overrun_le_of_run {start : Devices → Prop} {t : System}
    (hreach : (driverMachine cfg start).ReachableUnder (fun _ event =>
      FramesMeet (fun frame => ∃ mtu, Settable mtu ∧ WithinMtu mtu frame) event) t)
    (hpc : Pc.hwTxFill d buf a ∈ t.pcs) : buf.length ≤ ethDataLen + ethHlen := by
  refine copy_le_of_run (by decide) ?_ hreach hpc
  rintro frame ⟨mtu, hmtu, hframe⟩
  have hmax := (settable_iff.mp hmtu).2
  rw [WithinMtu] at hframe
  rw [ethDataLen]
  omega

end Hack.Dummeth
