import Hack.GoSlice

/-!
# The video of an RTMP publisher

This file embeds `OnVideo` of `0xgo/webrtc/webrtc/rtmp.go`. The data of a video message is a
sequence of units, each behind its length in four bytes, and the loop of `OnVideo` puts a start
code in place of each length. Here every iteration also records the bounds of the slice
expressions that it evaluates, so that one can say which bytes the loop looks at.
-/

namespace Hack.Webrtc

/-- `RTP_HEADER_LENGTH_FIELD`. -/
def rtpHeaderLengthField : ℕ := 4

/-- The state of the loop, and the slice expressions that were evaluated. -/
structure Conversion where
  offset : ℕ
  outBuf : List UInt8
  slices : List (ℕ × ℕ)
deriving DecidableEq

/-- The loop before its first iteration. -/
def Conversion.start : Conversion := ⟨0, [], []⟩

/-- A slice expression is evaluated. -/
def Conversion.log (c : Conversion) (low high : ℕ) : Conversion :=
  { c with slices := c.slices ++ [(low, high)] }

/-- How an iteration ends. -/
inductive Control
  | next
  | exit
  | panic
deriving DecidableEq

/-- An iteration of the loop. -/
def iterate (videoBuffer : GoSlice) (c : Conversion) : Control × Conversion :=
  if c.offset < videoBuffer.len then
    let header := c.offset + rtpHeaderLengthField
    let read := c.log c.offset header
    match (videoBuffer.slice c.offset header).bind bigEndianUint32 with
    | none => (.panic, read)
    | some bufferLength =>
      if videoBuffer.len ≤ c.offset + bufferLength then (.exit, read)
      else
        let copied := read.log header (header + bufferLength)
        let outBuf := c.outBuf ++ [0x00, 0x00, 0x00, 0x01]
        match videoBuffer.slice header (header + bufferLength) with
        | none => (.panic, copied)
        | some unit => (.next, ⟨header + bufferLength, outBuf ++ unit, copied.slices⟩)
  else (.exit, c)

variable {videoBuffer : GoSlice} {c c' : Conversion} {n : ℕ} {unit : NalUnit} {more : List UInt8}

/-- An iteration that is followed by another one has moved on inside of the buffer. -/
theorem offset_lt_of_iterate (h : iterate videoBuffer c = (.next, c')) :
    c.offset < videoBuffer.len ∧ c.offset < c'.offset := by
  unfold iterate at h
  split_ifs at h with hoffset
  · refine ⟨hoffset, ?_⟩
    dsimp only at h
    split at h
    · cases h
    · split_ifs at h
      · cases h
      · split at h
        · cases h
        · cases h
          show c.offset < c.offset + rtpHeaderLengthField + _
          rw [rtpHeaderLengthField]
          omega
  · cases h

/-- The loop from a state on. It ends by `exit` or by `panic`. -/
def convertFrom (videoBuffer : GoSlice) (c : Conversion) : Control × Conversion :=
  match _h : iterate videoBuffer c with
  | (.next, c') => convertFrom videoBuffer c'
  | (.exit, c') => (.exit, c')
  | (.panic, c') => (.panic, c')
termination_by videoBuffer.len - c.offset
decreasing_by
  have hmoved := offset_lt_of_iterate _h
  omega

/-- The loop of `OnVideo`. -/
def convert (videoBuffer : GoSlice) : Control × Conversion := convertFrom videoBuffer .start

/-- `media.Sample`, with the duration in nanoseconds. -/
structure Sample where
  data : List UInt8
  duration : ℕ
deriving DecidableEq

/-- `OnVideo`: the sample and the track it is written to, an error, or a panic. What
`DecodeVideoData` and the copying of its data give is left open. -/
def onVideo {Key Track Payload : Type*} (rtpConsumers : Key → Option Track)
    (decodeVideoData : Payload → Except String GoSlice) (publisherKey : Key) (payload : Payload) :
    Option (Except String (Track × Sample)) :=
  match rtpConsumers publisherKey with
  | none => some (.error "invalid publisher")
  | some track =>
    match decodeVideoData payload with
    | .error err => some (.error err)
    | .ok videoBuffer =>
      match convert videoBuffer with
      | (.exit, c) => some (.ok (track, ⟨c.outBuf, 1000000000 / 30⟩))
      | _ => none

/-! ### What an iteration does -/

/-- The loop after an iteration that goes on. -/
theorem convertFrom_of_next (h : iterate videoBuffer c = (.next, c')) :
    convertFrom videoBuffer c = convertFrom videoBuffer c' := by
  rw [convertFrom, h]

/-- The loop after an iteration that ends it. -/
theorem convertFrom_of_exit (h : iterate videoBuffer c = (.exit, c')) :
    convertFrom videoBuffer c = (.exit, c') := by
  rw [convertFrom, h]

/-- What was recorded stays recorded. -/
theorem slices_subset_iterate (videoBuffer : GoSlice) (c : Conversion) :
    c.slices ⊆ (iterate videoBuffer c).2.slices := by
  intro range hrange
  unfold iterate
  split_ifs
  · dsimp only
    split
    · exact List.mem_append_left _ hrange
    · split_ifs
      · exact List.mem_append_left _ hrange
      · split <;> exact List.mem_append_left _ (List.mem_append_left _ hrange)
  · exact hrange

/-- What an iteration records stays recorded to the end of the loop. -/
theorem mem_slices_convertFrom {range : ℕ × ℕ} (h : range ∈ (iterate videoBuffer c).2.slices) :
    range ∈ (convertFrom videoBuffer c).2.slices := by
  fun_induction convertFrom videoBuffer c with
  | case1 c c' hnext ih =>
    apply ih
    rw [hnext] at h
    exact slices_subset_iterate videoBuffer c' h
  | case2 c c' hexit => rwa [hexit] at h
  | case3 c c' hpanic => rwa [hpanic] at h

/-! ### Units and their lengths -/

/-- A unit, of a length that four bytes can hold. -/
abbrev NalUnit := {unit : List UInt8 // unit.length < 2 ^ 32}

/-- The units, each behind its length. -/
def avcc (units : List NalUnit) : List UInt8 :=
  units.flatMap fun unit => putBigEndianUint32 unit.val.length ++ unit.val

/-- The units, each behind a start code. -/
def annexB (units : List NalUnit) : List UInt8 :=
  units.flatMap fun unit => [0x00, 0x00, 0x00, 0x01] ++ unit.val

theorem avcc_cons_append (unit : NalUnit) (units : List NalUnit) (tail : List UInt8) :
    avcc (unit :: units) ++ tail =
      putBigEndianUint32 unit.val.length ++ (unit.val ++ (avcc units ++ tail)) := by
  rw [avcc, List.flatMap_cons, List.append_assoc, List.append_assoc, avcc]

/-- The bytes that the loop has not consumed. -/
def Conversion.rest (videoBuffer : GoSlice) (c : Conversion) : List UInt8 :=
  videoBuffer.bytes.drop c.offset

theorem Conversion.length_rest (videoBuffer : GoSlice) (c : Conversion) :
    (c.rest videoBuffer).length = videoBuffer.len - c.offset := by
  rw [rest, List.length_drop, GoSlice.length_bytes]

/-- At the end of the buffer the loop ends. -/
theorem iterate_of_rest_eq_nil (hrest : c.rest videoBuffer = []) :
    iterate videoBuffer c = (.exit, c) := by
  have hlength := c.length_rest videoBuffer
  rw [hrest, List.length_nil] at hlength
  rw [iterate, if_neg (by omega)]

/-- A length field that is complete is read. -/
theorem slice_field (hn : bigEndianUint32 (c.rest videoBuffer) = some n) :
    (videoBuffer.slice c.offset (c.offset + rtpHeaderLengthField)).bind bigEndianUint32 =
      some n := by
  have hlength := c.length_rest videoBuffer
  have hfour := length_of_bigEndianUint32 hn
  rw [videoBuffer.slice_eq (Nat.le_add_right _ _) (by rw [rtpHeaderLengthField]; omega),
    Option.bind_some, Nat.add_sub_cancel_left]
  exact (bigEndianUint32_take _).trans hn

/-- A length that reaches the end of the buffer ends the loop. -/
theorem iterate_of_length_le (hn : bigEndianUint32 (c.rest videoBuffer) = some n)
    (hle : (c.rest videoBuffer).length ≤ n) :
    iterate videoBuffer c = (.exit, c.log c.offset (c.offset + rtpHeaderLengthField)) := by
  have hlength := c.length_rest videoBuffer
  have hfour := length_of_bigEndianUint32 hn
  rw [iterate, if_pos (by omega)]
  simp only [slice_field hn]
  rw [if_pos (by omega)]

/-- A unit behind its length is copied behind a start code. -/
theorem iterate_of_unit
    (hrest : c.rest videoBuffer = putBigEndianUint32 unit.val.length ++ (unit.val ++ more)) :
    iterate videoBuffer c = (.next, ⟨c.offset + 4 + unit.val.length,
        c.outBuf ++ [0x00, 0x00, 0x00, 0x01] ++ unit.val,
        c.slices ++ [(c.offset, c.offset + 4)] ++
          [(c.offset + 4, c.offset + 4 + unit.val.length)]⟩) := by
  have hn : bigEndianUint32 (c.rest videoBuffer) = some unit.val.length := by
    rw [hrest, bigEndianUint32_put unit.property]
  have hlength := c.length_rest videoBuffer
  rw [hrest, List.length_append, List.length_append, length_putBigEndianUint32] at hlength
  have hunit : videoBuffer.slice (c.offset + rtpHeaderLengthField)
      (c.offset + rtpHeaderLengthField + unit.val.length) = some unit.val := by
    rw [videoBuffer.slice_eq (Nat.le_add_right _ _) (by rw [rtpHeaderLengthField]; omega),
      ← List.drop_drop]
    change some ((List.drop 4 (c.rest videoBuffer)).take _) = _
    rw [hrest, Nat.add_sub_cancel_left]
    exact congrArg some List.take_left
  rw [iterate, if_pos (by omega)]
  simp only [slice_field hn]
  rw [if_neg (by omega)]
  simp only [hunit]
  rfl

/-- The bytes behind a unit. -/
theorem rest_of_unit
    (hrest : c.rest videoBuffer = putBigEndianUint32 unit.val.length ++ (unit.val ++ more))
    (outBuf : List UInt8) (slices : List (ℕ × ℕ)) :
    (⟨c.offset + 4 + unit.val.length, outBuf, slices⟩ : Conversion).rest videoBuffer = more := by
  rw [Conversion.rest, ← List.drop_drop, ← List.drop_drop]
  change ((c.rest videoBuffer).drop 4).drop _ = _
  rw [hrest]
  exact List.drop_left

/-- The loop copies any number of units, and looks at no byte behind the buffer meanwhile. -/
theorem exists_convertFrom_avcc (units : List NalUnit) {tail : List UInt8}
    (hrest : c.rest videoBuffer = avcc units ++ tail) :
    ∃ slices : List (ℕ × ℕ), (∀ range ∈ slices, range.2 ≤ videoBuffer.len) ∧
      convertFrom videoBuffer c = convertFrom videoBuffer
        ⟨c.offset + (avcc units).length, c.outBuf ++ annexB units, c.slices ++ slices⟩ := by
  induction units generalizing c with
  | nil => exact ⟨[], by simp, by simp [avcc, annexB]⟩
  | cons unit units ih =>
    have hunit : c.rest videoBuffer =
        putBigEndianUint32 unit.val.length ++ (unit.val ++ (avcc units ++ tail)) := by
      rw [hrest, avcc_cons_append]
    have hlength := c.length_rest videoBuffer
    rw [hunit, List.length_append, List.length_append, length_putBigEndianUint32] at hlength
    have hiter := iterate_of_unit hunit
    generalize hc : (⟨_, _, _⟩ : Conversion) = c₁ at hiter
    have hrest₁ : c₁.rest videoBuffer = avcc units ++ tail := by
      rw [← hc, rest_of_unit hunit]
    obtain ⟨slices, hslices, hloop⟩ := ih hrest₁
    refine ⟨(c.offset, c.offset + 4) :: (c.offset + 4, c.offset + 4 + unit.val.length) :: slices,
      ?_, ?_⟩
    · rw [List.forall_mem_cons, List.forall_mem_cons]
      exact ⟨by dsimp only; omega, by dsimp only; omega, hslices⟩
    · rw [convertFrom_of_next hiter, hloop, ← hc]
      congr 2
      · simp [avcc, Nat.add_assoc]
      · simp [annexB]
      · simp

/-- The loop on units behind their lengths. -/
theorem exists_convert_avcc (units : List NalUnit) (spare : List UInt8) :
    ∃ slices, convert (.ofBytes (avcc units) spare) =
      (.exit, ⟨(avcc units).length, annexB units, slices⟩) := by
  have hrest : Conversion.start.rest (.ofBytes (avcc units) spare) = avcc units ++ [] := by
    rw [Conversion.rest, Conversion.start, GoSlice.bytes_ofBytes, List.drop_zero, List.append_nil]
  obtain ⟨slices, -, hloop⟩ := exists_convertFrom_avcc units hrest
  refine ⟨slices, ?_⟩
  rw [convert, hloop]
  simp only [Conversion.start, Nat.zero_add, List.nil_append]
  apply convertFrom_of_exit
  apply iterate_of_rest_eq_nil
  rw [Conversion.rest, GoSlice.bytes_ofBytes, List.drop_length]

section OnVideo

variable {Key Track Payload : Type*} {rtpConsumers : Key → Option Track}
  {decodeVideoData : Payload → Except String GoSlice} {publisherKey : Key} {payload : Payload}
  {track : Track}

/-- When the data of a message is units laid out behind their lengths, the loop consumes all of
it, and the units behind start codes are what `OnVideo` writes to the track. -/
theorem onVideo_writes_annexB (units : List NalUnit) (spare : List UInt8)
    (hconsumer : rtpConsumers publisherKey = some track)
    (hdata : decodeVideoData payload = .ok (.ofBytes (avcc units) spare)) :
    (∃ slices, convert (.ofBytes (avcc units) spare) =
      (.exit, ⟨(avcc units).length, annexB units, slices⟩)) ∧
    onVideo rtpConsumers decodeVideoData publisherKey payload =
      some (.ok (track, ⟨annexB units, 33333333⟩)) := by
  obtain ⟨slices, hconvert⟩ := exists_convert_avcc units spare
  refine ⟨⟨slices, hconvert⟩, ?_⟩
  simp only [onVideo, hconsumer, hdata, hconvert]

/-- Two units, one of them empty, in a message to the only publisher. -/
theorem onVideo_writes_annexB_two :
    avcc [⟨[0x65, 0x88], by decide⟩, ⟨[], by decide⟩] = [0, 0, 0, 2, 0x65, 0x88, 0, 0, 0, 0] ∧
    annexB [⟨[0x65, 0x88], by decide⟩, ⟨[], by decide⟩] = [0, 0, 0, 1, 0x65, 0x88, 0, 0, 0, 1] ∧
    onVideo (fun _ : Unit => some "video")
      (fun _ : Unit => .ok (.ofBytes (avcc [⟨[0x65, 0x88], by decide⟩, ⟨[], by decide⟩]) []))
      () () =
      some (.ok ("video", ⟨annexB [⟨[0x65, 0x88], by decide⟩, ⟨[], by decide⟩], 33333333⟩)) :=
  ⟨rfl, rfl, (onVideo_writes_annexB _ [] rfl rfl).2⟩

end OnVideo

/-! ### Which buffers keep the loop inside -/

/-- The loop ends, and no slice expression reaches behind the buffer. -/
def SlicesInside (videoBuffer : GoSlice) : Prop :=
  (convert videoBuffer).1 = .exit ∧
    ∀ range ∈ (convert videoBuffer).2.slices, range.2 ≤ videoBuffer.len

/-- The bytes are complete units, each behind its length, and behind them nothing or a length that
is at least the number of bytes left, its own four included. -/
def EndsWithUnit (bytes : List UInt8) : Prop :=
  ∃ (units : List NalUnit) (tail : List UInt8), bytes = avcc units ++ tail ∧
    (tail = [] ∨ ∃ n, bigEndianUint32 tail = some n ∧ tail.length ≤ n)

/-- Before the end of the buffer, four bytes are looked at. -/
theorem field_mem_slices (hoffset : c.offset < videoBuffer.len) :
    (c.offset, c.offset + 4) ∈ (iterate videoBuffer c).2.slices := by
  have hread : (c.offset, c.offset + 4) ∈ (c.log c.offset (c.offset + 4)).slices := by
    simp [Conversion.log]
  rw [iterate, if_pos hoffset]
  dsimp only
  split
  · exact hread
  · split_ifs
    · exact hread
    · split <;> exact List.mem_append_left _ hread

/-- Behind a length that does not reach the end of the buffer, so many bytes are looked at. -/
theorem unit_mem_slices (hn : bigEndianUint32 (c.rest videoBuffer) = some n)
    (hlt : n < (c.rest videoBuffer).length) :
    (c.offset + 4, c.offset + 4 + n) ∈ (iterate videoBuffer c).2.slices := by
  have hlength := c.length_rest videoBuffer
  rw [iterate, if_pos (by omega)]
  simp only [slice_field hn]
  rw [if_neg (by omega)]
  split <;> exact List.mem_append_right _ List.mem_cons_self

/-- An iteration that stays inside of the buffer finds its end, a length that reaches over it, or
a complete unit. -/
theorem rest_of_inside
    (hinside : ∀ range ∈ (iterate videoBuffer c).2.slices, range.2 ≤ videoBuffer.len) :
    c.rest videoBuffer = [] ∨
      (∃ n, bigEndianUint32 (c.rest videoBuffer) = some n ∧ (c.rest videoBuffer).length ≤ n) ∨
      ∃ (unit : NalUnit) (more : List UInt8),
        c.rest videoBuffer = putBigEndianUint32 unit.val.length ++ (unit.val ++ more) := by
  have hlength := c.length_rest videoBuffer
  by_cases hend : videoBuffer.len ≤ c.offset
  · exact .inl (List.eq_nil_of_length_eq_zero (by omega))
  · right
    have hfield := hinside _ (field_mem_slices (Nat.not_le.mp hend))
    have hfour : 4 ≤ (c.rest videoBuffer).length := by
      dsimp only at hfield
      omega
    obtain ⟨n, hn, hlt, hput⟩ := exists_bigEndianUint32 hfour
    by_cases hle : (c.rest videoBuffer).length ≤ n
    · exact .inl ⟨n, hn, hle⟩
    · right
      have hunit := hinside _ (unit_mem_slices hn (Nat.not_le.mp hle))
      have hn_le : n ≤ ((c.rest videoBuffer).drop 4).length := by
        rw [List.length_drop]
        dsimp only at hunit
        omega
      have htake : (((c.rest videoBuffer).drop 4).take n).length = n :=
        List.length_take_of_le hn_le
      refine ⟨⟨((c.rest videoBuffer).drop 4).take n, by rwa [htake]⟩,
        ((c.rest videoBuffer).drop 4).drop n, ?_⟩
      rw [List.take_append_drop, htake]
      exact hput

/-- A loop that stays inside of the buffer finds complete units, and behind them nothing or a
length that reaches over the end. -/
theorem endsWithUnit_of_inside
    (hinside : ∀ range ∈ (convertFrom videoBuffer c).2.slices, range.2 ≤ videoBuffer.len) :
    EndsWithUnit (c.rest videoBuffer) := by
  induction hleft : videoBuffer.len - c.offset using Nat.strongRecOn generalizing c with
  | ind left ih =>
    obtain hnil | htail | ⟨unit, more, hunit⟩ :=
      rest_of_inside fun range hrange => hinside range (mem_slices_convertFrom hrange)
    · exact ⟨[], [], hnil, .inl rfl⟩
    · exact ⟨[], _, rfl, .inr htail⟩
    · have hiter := iterate_of_unit hunit
      generalize hc : (⟨_, _, _⟩ : Conversion) = c₁ at hiter
      rw [convertFrom_of_next hiter] at hinside
      have hmoved := offset_lt_of_iterate hiter
      obtain ⟨units, tail, hrest, htail⟩ := ih _ (by omega) hinside rfl
      refine ⟨unit :: units, tail, ?_, htail⟩
      have hmore : c₁.rest videoBuffer = more := by rw [← hc, rest_of_unit hunit]
      rw [hunit, ← hmore, hrest, avcc_cons_append]

/-- The loop stays inside of exactly the buffers that end with a unit, or with a length that
reaches over the end. -/
theorem slicesInside_iff (videoBuffer : GoSlice) :
    SlicesInside videoBuffer ↔ EndsWithUnit videoBuffer.bytes := by
  have hstart : Conversion.start.rest videoBuffer = videoBuffer.bytes := List.drop_zero
  constructor
  · intro hinside
    rw [← hstart]
    exact endsWithUnit_of_inside hinside.2
  · rintro ⟨units, tail, hbytes, htail⟩
    obtain ⟨slices, hslices, hloop⟩ :=
      exists_convertFrom_avcc (c := .start) units (hstart.trans hbytes)
    rw [SlicesInside, convert, hloop]
    generalize hc : (⟨_, _, _⟩ : Conversion) = c
    have hrest : c.rest videoBuffer = tail := by
      rw [← hc, Conversion.rest, hbytes, Conversion.start, Nat.zero_add, List.drop_left]
    have hlog : c.slices = slices := by
      rw [← hc]
      rfl
    obtain hnil | ⟨n, hn, hle⟩ := htail
    · rw [convertFrom_of_exit (iterate_of_rest_eq_nil (hrest.trans hnil)), hlog]
      exact ⟨rfl, hslices⟩
    · rw [← hrest] at hn hle
      rw [convertFrom_of_exit (iterate_of_length_le hn hle)]
      refine ⟨rfl, ?_⟩
      have hlength := c.length_rest videoBuffer
      have hfour := length_of_bigEndianUint32 hn
      rw [Conversion.log, hlog, List.forall_mem_append, List.forall_mem_singleton]
      exact ⟨hslices, by dsimp only [rtpHeaderLengthField]; omega⟩

/-- A buffer of one byte is read over its end, both in an array of its own size and in a larger
one. -/
theorem not_slicesInside_one_byte :
    ¬SlicesInside (.ofBytes [0] []) ∧ ¬SlicesInside (.ofBytes [0] (List.replicate 511 0)) := by
  have houtside (spare : List UInt8) : ¬SlicesInside (.ofBytes [0] spare) := by
    intro hinside
    have hrange := hinside.2 (0, 4) (mem_slices_convertFrom (field_mem_slices Nat.zero_lt_one))
    exact absurd hrange (show ¬4 ≤ 1 by decide)
  exact ⟨houtside _, houtside _⟩

end Hack.Webrtc
