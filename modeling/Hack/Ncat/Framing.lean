import Hack.Blocks

/-!
# The framing of ncat

This file embeds the send loop of `NCAT_client` and the receive loop of
`NCAT_listen_and_serve` in `ncat/ncat.c`. The client sends each line as a buffer of
`MAX_WRITE_BUFF` bytes, the line followed by zeros. The server reads into a temporary buffer,
up to `MAX_READ_BUFF` bytes at a time however much of the current block is missing, and
copies what it got behind what it has. A write behind the end of `rbuff` is a fault, and a
loop that faults has no result. Apart from that the server is a collector of blocks.
-/

namespace Hack.Ncat

open Blocks

/-- `MAX_READ_BUFF`, which is also `MAX_WRITE_BUFF`. -/
def maxReadBuff : ℕ := 1024 * 1024

/-- A buffer that begins with some bytes, the rest of it zero. -/
def zeroPadded (size : ℕ) (bytes : List UInt8) : List UInt8 :=
  bytes ++ List.replicate (size - bytes.length) 0

/-- What `fgets` puts into a cleared buffer of some size for a line: the line with its
newline, cut off before the last byte of the buffer. -/
def fgets (size : ℕ) (line : List UInt8) : List UInt8 :=
  zeroPadded size ((line ++ [10]).take (size - 1))

/-- The loop of `NCAT_client` that looks for the last newline from an index down to 1 and
clears it. -/
def clearNewline : ℕ → List UInt8 → List UInt8
  | 0, wbuff => wbuff
  | i + 1, wbuff => if wbuff[i + 1]? = some 10 then wbuff.set (i + 1) 0 else clearNewline i wbuff

/-- The buffer `NCAT_client` writes for a line. -/
def clientBlock (size : ℕ) (line : List UInt8) : List UInt8 :=
  clearNewline (size - 1) (fgets size line)

/-- The string at the beginning of a buffer. -/
def cString (buff : List UInt8) : List UInt8 := buff.takeWhile (· ≠ 0)

/-- The loop that copies what was read into `rbuff` from an index on. -/
def copyAt : List UInt8 → ℕ → List UInt8 → Option (List UInt8)
  | rbuff, _, [] => some rbuff
  | rbuff, idx, byte :: tmp =>
    if idx < rbuff.length then copyAt (rbuff.set idx byte) (idx + 1) tmp else none

/-- The state of the receive loop before a `read`. -/
structure Receiver where
  /-- The buffer for the current block. -/
  rbuff : List UInt8
  /-- The number of bytes read for the current block. -/
  valread : ℕ
  /-- The lines printed so far. -/
  printed : List (List UInt8)

/-- The result of a `read`. -/
inductive ReadResult
  | bytes (tmp : List UInt8)
  | eof
  | error

/-- The receiver with a cleared buffer. -/
def Receiver.cleared (size : ℕ) (printed : List (List UInt8)) : Receiver :=
  ⟨List.replicate size 0, 0, printed⟩

/-- The receiver after some bytes were read: a complete block is printed. -/
def Receiver.onBytes (size : ℕ) (s : Receiver) (tmp : List UInt8) : Option Receiver :=
  (copyAt s.rbuff s.valread tmp).map fun rbuff =>
    if s.valread + tmp.length < size then { s with rbuff, valread := s.valread + tmp.length }
    else .cleared size (s.printed ++ [cString rbuff])

/-- The receive loop of `NCAT_listen_and_serve` for the results of successive reads. The
connection is given up at its end or on an error, without printing a block that is not
complete. -/
def receiveLoop (size : ℕ) : Receiver → List ReadResult → Option Receiver
  | s, [] => some s
  | s, .bytes tmp :: reads => (s.onBytes size tmp).bind fun s' => receiveLoop size s' reads
  | s, .eof :: _ => some s
  | s, .error :: _ => some s

variable {size : ℕ} {line acc tmp : List UInt8}

/-- A padded buffer has its size. -/
theorem length_zeroPadded (hlength : acc.length ≤ size) : (zeroPadded size acc).length = size := by
  simp only [zeroPadded, List.length_append, List.length_replicate]
  omega

/-- The string in a padded line without zeros is the line. -/
theorem cString_zeroPadded (hzero : ∀ byte ∈ line, byte ≠ 0) (hlength : line.length < size) :
    cString (zeroPadded size line) = line := by
  obtain ⟨k, hk⟩ : ∃ k, size - line.length = k + 1 := ⟨size - line.length - 1, by omega⟩
  rw [cString, zeroPadded, hk, List.replicate_succ,
    List.takeWhile_append_of_pos (by simpa using hzero)]
  simp

/-- A newline cleared behind the end of a line leaves the padded line. -/
theorem clearNewline_of_newline {i : ℕ} (hi : line.length ≤ i) (hline : line ≠ [])
    (hlength : line.length < size) :
    clearNewline i (zeroPadded size (line ++ [10])) = zeroPadded size line := by
  induction i with
  | zero => simp_all
  | succ i ih =>
    unfold clearNewline
    have hpad : size - line.length = size - (line ++ [10]).length + 1 := by
      rw [List.length_append, List.length_singleton]
      omega
    rcases Nat.eq_or_lt_of_le hi with hi | hi
    · have hget : (zeroPadded size (line ++ [10]))[i + 1]? = some 10 := by
        simp [zeroPadded, ← hi]
      rw [if_pos hget, zeroPadded, zeroPadded, hpad, List.replicate_succ, ← hi, List.append_assoc,
        List.set_append_right _ _ (Nat.le_refl _), Nat.sub_self]
      rfl
    · have hget : (zeroPadded size (line ++ [10]))[i + 1]? ≠ some 10 := by
        intro heq
        have hbehind : (line ++ [10]).length ≤ i + 1 := by simpa using Nat.lt_succ_iff.mp hi
        rw [zeroPadded, List.getElem?_append_right hbehind] at heq
        have hmem := List.eq_of_mem_replicate (List.mem_of_getElem? heq)
        cases hmem
      rw [if_neg hget]
      exact ih (Nat.lt_succ_iff.mp hi)

/-- A buffer without newlines is left as it is. -/
theorem clearNewline_of_no_newline {wbuff : List UInt8} (i : ℕ) (hnone : 10 ∉ wbuff) :
    clearNewline i wbuff = wbuff := by
  induction i with
  | zero => rfl
  | succ i ih =>
    unfold clearNewline
    rw [if_neg fun hget => hnone (List.mem_of_getElem? hget)]
    exact ih

/-- The client sends a line as a padded buffer. A line that leaves no room for its newline is
cut off before it. -/
theorem clientBlock_eq (hline : line ≠ []) (hnewline : 10 ∉ line) (hlength : line.length < size) :
    clientBlock size line = zeroPadded size line := by
  unfold clientBlock fgets
  rcases Nat.eq_or_lt_of_le (Nat.le_sub_one_of_lt hlength) with heq | hlt
  · rw [← heq, List.take_left]
    refine clearNewline_of_no_newline _ fun hmem => ?_
    rcases List.mem_append.mp hmem with hmem | hmem
    · exact hnewline hmem
    · cases List.eq_of_mem_replicate hmem
  · have hfits : (line ++ [10]).length ≤ size - 1 := by
      rw [List.length_append, List.length_singleton]
      omega
    rw [List.take_of_length_le hfits]
    exact clearNewline_of_newline (Nat.le_of_lt hlt) hline hlength

/-- Copying behind a beginning that was read extends it, as long as there is room. -/
theorem copyAt_zeroPadded (hacc : acc.length ≤ size) : copyAt (zeroPadded size acc) acc.length tmp =
      if size < acc.length + tmp.length then none else some (zeroPadded size (acc ++ tmp)) := by
  induction tmp generalizing acc with
  | nil => simp [copyAt, hacc]
  | cons byte tmp ih =>
    unfold copyAt
    rw [length_zeroPadded hacc]
    by_cases hroom : acc.length < size
    · have hset : (zeroPadded size acc).set acc.length byte = zeroPadded size (acc ++ [byte]) := by
        obtain ⟨k, hk⟩ : ∃ k, size - acc.length = k + 1 := ⟨size - acc.length - 1, by omega⟩
        have hk' : size - (acc ++ [byte]).length = k := by
          rw [List.length_append, List.length_singleton]
          omega
        rw [zeroPadded, zeroPadded, hk, hk', List.replicate_succ,
          List.set_append_right _ _ (Nat.le_refl _), Nat.sub_self, List.set_cons_zero,
          List.append_assoc, List.singleton_append]
      have hlength : (acc ++ [byte]).length ≤ size := by
        rw [List.length_append, List.length_singleton]
        omega
      have hcopy := ih hlength
      rw [List.length_append, List.length_singleton] at hcopy
      rw [if_pos hroom, hset, hcopy, List.length_cons, Nat.add_assoc, Nat.add_comm 1,
        List.append_assoc, List.singleton_append]
    · rw [if_neg hroom, if_pos (by rw [List.length_cons]; omega)]

/-- A receiver that has read the beginning of a block. -/
def Receiver.having (size : ℕ) (acc : List UInt8) (printed : List (List UInt8)) : Receiver :=
  ⟨zeroPadded size acc, acc.length, printed⟩

/-- The receive loop collects blocks and prints the string in each. -/
theorem receiveLoop_eq_collect (acc : List UInt8) (chunks printed : List (List UInt8))
    (hacc : acc.length < size) :
    receiveLoop size (.having size acc printed) (chunks.map .bytes) =
      (collect size acc chunks).map fun r => .having size r.2 (printed ++ r.1.map cString) := by
  induction chunks generalizing acc printed with
  | nil => simp [receiveLoop, collect]
  | cons tmp chunks ih =>
    rw [List.map_cons, receiveLoop, Receiver.onBytes, Receiver.having,
      copyAt_zeroPadded (Nat.le_of_lt hacc),
      collect]
    rcases Nat.lt_trichotomy (acc.length + tmp.length) size with hlt | heq | hgt
    · have hnot : ¬size < acc.length + tmp.length := by omega
      simp only [if_neg hnot, Option.map_some, if_pos hlt, Option.bind_some]
      rw [← List.length_append] at hlt ⊢
      exact ih (acc ++ tmp) printed hlt
    · have hcleared : ∀ lines, Receiver.cleared size lines =
          .having size [] lines := fun lines => by
        simp [Receiver.cleared, Receiver.having, zeroPadded]
      have hfull : zeroPadded size (acc ++ tmp) = acc ++ tmp := by simp [zeroPadded, heq]
      simp only [heq, if_neg (Nat.lt_irrefl size), Option.map_some, Option.bind_some, hcleared,
        hfull]
      rw [ih [] _ (Nat.zero_lt_of_lt hacc), Option.map_map]
      congr 1
      funext r
      simp
    · simp [if_pos hgt]

/-- What the client sends: lines that are not empty, without zeros and newlines, and shorter
than the buffer. -/
def Sendable (size : ℕ) (line : List UInt8) : Prop :=
  line ≠ [] ∧ (∀ byte ∈ line, byte ≠ 0) ∧ 10 ∉ line ∧ line.length < size

/-- The receive loop prints the lines of an aligned stream, and faults on any other. -/
theorem receiveLoop_cases {lines chunks : List (List UInt8)} (hsize : 0 < size)
    (hlines : ∀ line ∈ lines, Sendable size line)
    (hstream : chunks.flatten = (lines.map (clientBlock size)).flatten) :
    Aligned size lines.length 0 chunks ∧
      receiveLoop size (.cleared size []) (chunks.map .bytes) = some (.cleared size lines) ∨
    ¬Aligned size lines.length 0 chunks ∧
      receiveLoop size (.cleared size []) (chunks.map .bytes) = none := by
  have hcleared : ∀ printed, Receiver.cleared size printed = .having size [] printed := fun _ => by
    simp [Receiver.cleared, Receiver.having, zeroPadded]
  have hblock : ∀ line ∈ lines, clientBlock size line = zeroPadded size line := fun line hline => by
    obtain ⟨hne, -, hnewline, hlength⟩ := hlines line hline
    exact clientBlock_eq hne hnewline hlength
  have hblocks : ∀ block ∈ lines.map (clientBlock size), block.length = size := by
    intro block hmem
    obtain ⟨line, hline, rfl⟩ := List.mem_map.mp hmem
    rw [hblock line hline, length_zeroPadded (Nat.le_of_lt (hlines line hline).2.2.2)]
  have hprinted : (lines.map (clientBlock size)).map cString = lines := by
    rw [List.map_map, List.map_congr_left (g := id), List.map_id]
    intro line hline
    obtain ⟨-, hzero, -, hlength⟩ := hlines line hline
    rw [Function.comp_apply, hblock line hline, cString_zeroPadded hzero hlength, id]
  have hstream' : [] ++ chunks.flatten = (lines.map (clientBlock size)).flatten := hstream
  rw [hcleared, hcleared, receiveLoop_eq_collect [] chunks [] hsize]
  rcases collect_cases hblocks hstream' hsize with ⟨haligned, hr⟩ | ⟨haligned, hr⟩
  · refine .inl ⟨by simpa using haligned, ?_⟩
    rw [hr, Option.map_some, List.nil_append, hprinted]
  · exact .inr ⟨by simpa using haligned, by rw [hr, Option.map_none]⟩

/-- **Framing of ncat.** For every list of lines, and every way in which the stream of their
blocks arrives, the receive loop stays inside its buffer and prints exactly the lines, in
order, if and only if every block ends where the result of a `read` ends. -/
theorem receiveLoop_prints_lines_iff {lines chunks : List (List UInt8)}
    (hlines : ∀ line ∈ lines, Sendable maxReadBuff line)
    (hstream : chunks.flatten = (lines.map (clientBlock maxReadBuff)).flatten) :
    (∃ s, receiveLoop maxReadBuff (.cleared maxReadBuff []) (chunks.map .bytes) = some s ∧
      s.printed = lines) ↔
    ∀ k, 1 ≤ k → k ≤ lines.length → ∃ j, (chunks.take j).flatten.length = k * maxReadBuff := by
  have haligned_iff : Aligned maxReadBuff lines.length 0 chunks ↔
      ∀ k, 1 ≤ k → k ≤ lines.length → ∃ j, (chunks.take j).flatten.length = k * maxReadBuff := by
    simp only [Aligned, Nat.zero_add]
  rw [← haligned_iff]
  rcases receiveLoop_cases (by decide) hlines hstream with ⟨haligned, hloop⟩ | ⟨haligned, hloop⟩
  · exact ⟨fun _ => haligned, fun _ => ⟨_, hloop, rfl⟩⟩
  · refine ⟨?_, fun h => absurd h haligned⟩
    rintro ⟨s, hs, -⟩
    rw [hloop] at hs
    cases hs

/-- A line of one letter can be sent. -/
theorem sendable_letter {byte : UInt8} (hzero : byte ≠ 0) (hnewline : byte ≠ 10) :
    Sendable maxReadBuff [byte] :=
  ⟨by simp, by simpa using hzero, by simpa using hnewline.symm, by simp [maxReadBuff]⟩

/-- The block of a line of one letter has the size of the buffer. -/
theorem length_clientBlock_letter {byte : UInt8} (hnewline : byte ≠ 10) :
    (clientBlock maxReadBuff [byte]).length = maxReadBuff := by
  rw [clientBlock_eq (by simp) (by simpa using hnewline.symm) (by simp [maxReadBuff])]
  exact length_zeroPadded (by simp [maxReadBuff])

/-- Two lines are printed when the block of the first one arrives in two pieces and that of the
second one in a third. -/
theorem receiveLoop_prints_two_letters : ∃ s, receiveLoop maxReadBuff (.cleared maxReadBuff [])
        ([(clientBlock maxReadBuff [97]).take 5, (clientBlock maxReadBuff [97]).drop 5,
          clientBlock maxReadBuff [98]].map .bytes) = some s ∧ s.printed = [[97], [98]] := by
  have hfirst : (clientBlock maxReadBuff [97]).length = maxReadBuff :=
    length_clientBlock_letter (by decide)
  have hsecond : (clientBlock maxReadBuff [98]).length = maxReadBuff :=
    length_clientBlock_letter (by decide)
  have hlines : ∀ line ∈ [[97], [98]], Sendable maxReadBuff line := by
    simpa using ⟨sendable_letter (by decide) (by decide), sendable_letter (by decide) (by decide)⟩
  have hstream : [(clientBlock maxReadBuff [97]).take 5, (clientBlock maxReadBuff [97]).drop 5,
      clientBlock maxReadBuff [98]].flatten =
        ([[97], [98]].map (clientBlock maxReadBuff)).flatten := by
    simp only [List.flatten_cons, List.flatten_nil, List.map_cons, List.map_nil, List.append_nil]
    rw [← List.append_assoc, List.take_append_drop]
  refine (receiveLoop_prints_lines_iff hlines hstream).mpr fun k hk hcount => ⟨k + 1, ?_⟩
  obtain rfl | rfl : k = 1 ∨ k = 2 := by
    rw [List.length_cons, List.length_singleton] at hcount
    omega
  · simp only [List.take_succ_cons, List.take_zero, List.flatten_cons, List.flatten_nil,
      List.append_nil, List.take_append_drop, hfirst, Nat.one_mul]
  · simp only [List.take_succ_cons, List.take_zero, List.flatten_cons, List.flatten_nil,
      List.append_nil, List.length_append, hsecond]
    rw [← Nat.add_assoc, ← List.length_append, List.take_append_drop, hfirst, Nat.two_mul]

/-- A stream of two blocks split into three reads, the second of which reaches over the end of
the first block. -/
def splitAcross (size : ℕ) (stream : List UInt8) : List (List UInt8) :=
  [stream.take (size - 1), (stream.drop (size - 1)).take size, (stream.drop (size - 1)).drop size]

/-- Two lines whose blocks are split into reads of at most `MAX_READ_BUFF` bytes so that the
receive loop writes behind the end of its buffer. -/
theorem receiveLoop_overruns :
    ∃ lines chunks : List (List UInt8), (∀ line ∈ lines, Sendable maxReadBuff line) ∧
      (∀ chunk ∈ chunks, 1 ≤ chunk.length ∧ chunk.length ≤ maxReadBuff) ∧
      chunks.flatten = (lines.map (clientBlock maxReadBuff)).flatten ∧
      receiveLoop maxReadBuff (.cleared maxReadBuff []) (chunks.map .bytes) = none := by
  have hfirst : (clientBlock maxReadBuff [97]).length = maxReadBuff :=
    length_clientBlock_letter (by decide)
  have hsecond : (clientBlock maxReadBuff [98]).length = maxReadBuff :=
    length_clientBlock_letter (by decide)
  have hsize : 2 ≤ maxReadBuff := by decide
  have hlines : ∀ line ∈ [[97], [98]], Sendable maxReadBuff line := by
    simpa using ⟨sendable_letter (by decide) (by decide), sendable_letter (by decide) (by decide)⟩
  obtain ⟨stream, hstream⟩ : ∃ stream,
      stream = ([[97], [98]].map (clientBlock maxReadBuff)).flatten := ⟨_, rfl⟩
  have hlength : stream.length = 2 * maxReadBuff := by
    simp [hstream, hfirst, hsecond]
    omega
  have hflatten : (splitAcross maxReadBuff stream).flatten = stream := by
    simp only [splitAcross, List.flatten_cons, List.flatten_nil, List.append_nil,
      List.take_append_drop]
  refine ⟨[[97], [98]], splitAcross maxReadBuff stream, hlines, ?_, hflatten.trans hstream, ?_⟩
  · simp only [splitAcross, List.mem_cons, List.not_mem_nil, or_false, forall_eq_or_imp, forall_eq,
      List.length_take, List.length_drop, hlength]
    omega
  · rcases receiveLoop_cases (by decide) hlines (hflatten.trans hstream) with
      ⟨haligned, -⟩ | ⟨-, hloop⟩
    · have hlt : 0 + (stream.take (maxReadBuff - 1)).length < maxReadBuff := by
        rw [List.length_take]
        omega
      rw [splitAcross, aligned_cons_of_lt hlt] at haligned
      refine absurd haligned (not_aligned_cons_of_gt ?_ hlt)
      rw [List.length_take, List.length_take, List.length_drop]
      omega
    · exact hloop

end Hack.Ncat
