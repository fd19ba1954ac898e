import Hack.Wlan.Connect
import Mathlib.Data.Int.Notation

/-!
# The SSID in the context of the wlan driver

This file embeds `struct wlanidt_context` of `kwlan-if/core.h` with the memory of its fields, and
the effect of `wi_connect` and `wlanidt_connect_routine` on it. The context has 8 bytes for an
SSID and its zero, the copy takes up to 16, and the bytes behind the field are those of the work
item `ws_disconnect`. The comparison of the routine takes 8 bytes, which a longer SSID can have at
its front.
-/

namespace Hack.Wlan

/-- `struct wlanidt_context`. The two neighbours are given by their bytes. -/
structure Context where
  wiphy : ℕ
  ndev : ℕ
  sem : ℕ
  wsConnect : WorkItem
  connectingSsid : List UInt8
  wsDisconnect : List UInt8
  disconnectReasonCode : UInt16
  wsScan : WorkItem
  scanRequest : Option ℕ
  length_connectingSsid : connectingSsid.length = 8
  length_wsDisconnect : wsDisconnect.length = 32

/-- What `wi_connect` writes from the front of `connecting_ssid` on. -/
def written (ssid : List UInt8) : List UInt8 := ssid.take (min ssid.length 15) ++ [0]

theorem length_written (ssid : List UInt8) : (written ssid).length = min ssid.length 15 + 1 := by
  rw [written, List.length_append, List.length_take, List.length_singleton]
  omega

/-- The section of `wi_connect`, which leaves the semaphore as it found it. -/
def Context.store (c : Context) (ssid : List UInt8) : Context :=
  let memory := c.connectingSsid ++ c.wsDisconnect
  let memory' := written ssid ++ memory.drop (written ssid).length
  have hlength : memory'.length = 40 := by
    have hwritten := length_written ssid
    rw [List.length_append, List.length_drop, List.length_append, c.length_connectingSsid,
      c.length_wsDisconnect]
    omega
  { c with
    connectingSsid := memory'.take 8
    wsDisconnect := memory'.drop 8
    length_connectingSsid := by
      rw [List.length_take, hlength]
      rfl
    length_wsDisconnect := by rw [List.length_drop, hlength] }

/-- `wi_connect`, which a signal may interrupt while it waits for the semaphore. -/
def wiConnect (c : Context) (ssid : List UInt8) (interrupted : Bool) : ℤ × Context :=
  if interrupted then (-512, c)
  else
    match (c.store ssid).wsConnect.schedule with
    | none => (-16, c.store ssid)
    | some wsConnect => (0, { c.store ssid with wsConnect })

/-- `wlanidt_connect_routine`. It reports success with `cfg80211_connect_bss` and failure with
`cfg80211_connect_timeout`. -/
def connectRoutine (c : Context) (interrupted : Bool) : Option Bool × Context :=
  if interrupted then (none, c)
  else
    (some (c.connectingSsid = ssidDummy ++ [0]),
      { c with
        connectingSsid := c.connectingSsid.set 0 0
        length_connectingSsid := by rw [List.length_set, c.length_connectingSsid] })

/-- Two contexts that agree in every field but `connecting_ssid` and the mark of `schedule_work`
in `ws_connect`. -/
structure Context.SameElse (c c' : Context) : Prop where
  wiphy : c'.wiphy = c.wiphy
  ndev : c'.ndev = c.ndev
  sem : c'.sem = c.sem
  wsDisconnect : c'.wsDisconnect = c.wsDisconnect
  disconnectReasonCode : c'.disconnectReasonCode = c.disconnectReasonCode
  wsScan : c'.wsScan = c.wsScan
  scanRequest : c'.scanRequest = c.scanRequest

/-- A call touches the SSID only, and the routine run next succeeds exactly for the SSID that the
driver knows. -/
def ConnectsCleanly (c : Context) (ssid : List UInt8) : Prop :=
  c.SameElse (wiConnect c ssid false).2 ∧
    ((connectRoutine (wiConnect c ssid false).2 false).1 = some true ↔ ssid = ssidDummy)

/-- The SSID fits with its zero, or what is written behind the field stands there already, and it
does not begin with the known one and a zero. -/
def Harmless (c : Context) (ssid : List UInt8) : Prop :=
  (ssid.length ≤ 7 ∨ (ssid.take 15).drop 8 ++ [0] <+: c.wsDisconnect) ∧ ¬ssidDummy ++ [0] <+: ssid

variable {c : Context} {ssid : List UInt8}

/-- What a call leaves in the two fields. -/
theorem wiConnect_fields (c : Context) (ssid : List UInt8) :
    (wiConnect c ssid false).2.connectingSsid = (c.store ssid).connectingSsid ∧
      (c.SameElse (wiConnect c ssid false).2 ↔ (c.store ssid).wsDisconnect = c.wsDisconnect) := by
  rw [wiConnect, if_neg Bool.false_ne_true]
  cases (c.store ssid).wsConnect.schedule with
  | none => exact ⟨rfl, fun h => h.wsDisconnect, fun h => ⟨rfl, rfl, rfl, h, rfl, rfl, rfl⟩⟩
  | some work => exact ⟨rfl, fun h => h.wsDisconnect, fun h => ⟨rfl, rfl, rfl, h, rfl, rfl, rfl⟩⟩

/-- An SSID that fits with its zero. -/
theorem store_of_fits (hfits : ssid.length ≤ 7) :
    (c.store ssid).connectingSsid = ssid ++ 0 :: c.connectingSsid.drop (ssid.length + 1) ∧
      (c.store ssid).wsDisconnect = c.wsDisconnect := by
  have hmin : min ssid.length 15 = ssid.length := by omega
  have hwritten : written ssid = ssid ++ [0] := by rw [written, hmin, List.take_length]
  have hlength : (ssid ++ 0 :: c.connectingSsid.drop (ssid.length + 1)).length = 8 := by
    rw [List.length_append, List.length_cons, List.length_drop, c.length_connectingSsid]
    omega
  have hmemory : written ssid ++ (c.connectingSsid ++ c.wsDisconnect).drop (written ssid).length =
      ssid ++ 0 :: c.connectingSsid.drop (ssid.length + 1) ++ c.wsDisconnect := by
    rw [hwritten, List.length_append, List.length_singleton,
      List.drop_append_of_le_length (by rw [c.length_connectingSsid]; omega)]
    simp
  constructor
  · show List.take 8 _ = _
    rw [hmemory, List.take_left' hlength]
  · show List.drop 8 _ = _
    rw [hmemory, List.drop_left' hlength]

/-- A longer SSID. -/
theorem store_of_long (hlong : 8 ≤ ssid.length) : (c.store ssid).connectingSsid = ssid.take 8 ∧
      (c.store ssid).wsDisconnect = (ssid.take 15).drop 8 ++ [0] ++
        c.wsDisconnect.drop ((ssid.take 15).drop 8 ++ [0]).length := by
  have hwritten : written ssid = ssid.take 8 ++ ((ssid.take 15).drop 8 ++ [0]) := by
    have htake : ssid.take (min ssid.length 15) = ssid.take 15 := by
      rw [Nat.min_comm, ← List.take_eq_take_min]
    have hparts := List.take_append_drop 8 (ssid.take 15)
    rw [List.take_take] at hparts
    rw [written, htake, ← List.append_assoc]
    exact congrArg (· ++ [0]) hparts.symm
  have hfront : (ssid.take 8).length = 8 := List.length_take_of_le hlong
  have hmemory : written ssid ++ (c.connectingSsid ++ c.wsDisconnect).drop (written ssid).length =
      ssid.take 8 ++ ((ssid.take 15).drop 8 ++ [0] ++
        c.wsDisconnect.drop ((ssid.take 15).drop 8 ++ [0]).length) := by
    rw [hwritten, List.length_append, hfront, ← List.drop_drop,
      List.drop_left' c.length_connectingSsid, List.append_assoc]
  constructor
  · show List.take 8 _ = _
    rw [hmemory, List.take_left' hfront]
  · show List.drop 8 _ = _
    rw [hmemory, List.drop_left' hfront]

/-- Bytes written over the front of others change nothing exactly if they stand there already. -/
theorem append_drop_eq_iff (front bytes : List UInt8) :
    front ++ bytes.drop front.length = bytes ↔ front <+: bytes := by
  constructor
  · intro h
    exact ⟨_, h⟩
  · rintro ⟨rest, rfl⟩
    rw [List.drop_left]

/-- The work item of the routine is left as it is exactly if it was scheduled before. -/
theorem wsConnect_eq_iff (c : Context) (ssid : List UInt8) :
    (wiConnect c ssid false).2.wsConnect = c.wsConnect ↔ c.wsConnect.pending = true := by
  have hstore : (c.store ssid).wsConnect = c.wsConnect := rfl
  rw [wiConnect, if_neg Bool.false_ne_true, hstore, WorkItem.schedule]
  cases hpending : c.wsConnect.pending with
  | true => simp [hstore]
  | false =>
    refine iff_of_false (fun h => ?_) Bool.false_ne_true
    have hmark := congrArg WorkItem.pending h
    rw [hpending] at hmark
    cases hmark

/-- A call is clean exactly if the SSID is harmless. -/
theorem clean_iff_harmless (c : Context) (ssid : List UInt8) :
    ConnectsCleanly c ssid ↔ Harmless c ssid := by
  obtain ⟨hssid, hsame⟩ := wiConnect_fields c ssid
  have hreport : (connectRoutine (wiConnect c ssid false).2 false).1 = some true ↔
      (c.store ssid).connectingSsid = ssidDummy ++ [0] := by
    rw [connectRoutine, if_neg Bool.false_ne_true, Option.some_inj, decide_eq_true_iff, hssid]
  rw [ConnectsCleanly, Harmless, hsame, hreport]
  rcases Nat.lt_or_ge 7 ssid.length with hlong | hfits
  · obtain ⟨hconnecting, hdisconnect⟩ := store_of_long (c := c) hlong
    have hne : ssid ≠ ssidDummy := by
      rintro rfl
      exact absurd hlong (by decide)
    have htake : ssid.take 8 = ssidDummy ++ [0] ↔ ssidDummy ++ [0] <+: ssid := by
      rw [List.prefix_iff_eq_take, eq_comm]
      rfl
    rw [hconnecting, hdisconnect, append_drop_eq_iff, htake, iff_false_right hne,
      or_iff_right (Nat.not_le_of_lt hlong)]
  · obtain ⟨hconnecting, hdisconnect⟩ := store_of_fits (c := c) hfits
    have hlength := (c.store ssid).length_connectingSsid
    rw [hconnecting] at hlength ⊢
    have hshort : ¬ssidDummy ++ [0] <+: ssid := by
      intro h
      have hle : 8 ≤ ssid.length := h.length_le
      omega
    rw [append_zero_eq_dummy_iff hlength]
    exact iff_of_true ⟨hdisconnect, Iff.rfl⟩ ⟨.inl hfits, hshort⟩

/-- A call is clean exactly if the SSID is harmless, and it also leaves the work item of the routine
as it is exactly if that was scheduled before. -/
theorem connectsCleanly_iff (c : Context) (ssid : List UInt8) :
    (ConnectsCleanly c ssid ↔ Harmless c ssid) ∧
      (ConnectsCleanly c ssid ∧ (wiConnect c ssid false).2.wsConnect = c.wsConnect ↔
        Harmless c ssid ∧ c.wsConnect.pending = true) := by
  constructor
  · exact clean_iff_harmless c ssid
  · rw [clean_iff_harmless, wsConnect_eq_iff]

/-- A context as it may be between two calls: the work item behind the SSID has a byte that is not
zero at its front. -/
def idleContext : Context where
  wiphy := 0
  ndev := 0
  sem := 1
  wsConnect := .fresh
  connectingSsid := List.replicate 8 0
  wsDisconnect := 224 :: List.replicate 31 0
  disconnectReasonCode := 0
  wsScan := .fresh
  scanRequest := none
  length_connectingSsid := rfl
  length_wsDisconnect := rfl

example : Harmless idleContext ssidDummy := ⟨.inl (by decide), by decide⟩

/-- The zero behind an SSID of 8 bytes is written into the work item, and an SSID with the known
one and a zero at its front is taken for it. -/
theorem not_connectsCleanly_idle : ¬ConnectsCleanly idleContext (List.replicate 8 65) ∧
      (connectRoutine (wiConnect idleContext (ssidDummy ++ [0, 65]) false).2 false).1 =
        some true := by
  constructor
  · rintro ⟨hsame, -⟩
    exact absurd hsame.wsDisconnect (by decide)
  · decide

end Hack.Wlan
