import Hack.Hex
import Hack.NatServer.Request

/-!
# What percent-decoding leaves

The function `uri_unescape` decodes a string over itself. Its first loop only skips characters, up
to the first percent sign or white space, and its second loop decodes from there on. Here it is
compared with a decoder of one loop, which decodes from the first character on.
-/

namespace Hack.NatServer

open CString Strtok Hex

/-- The decoder of one loop: up to the first white space, a plus sign is a blank, a percent sign
with two digits is the byte that they name, and every other character is itself. -/
def plainDecode : List UInt8 → List UInt8
  | [] => []
  | c :: text =>
    if c = 0 ∨ isSpace c then []
    else if c = 43 then 32 :: plainDecode text
    else
      match text with
      | p :: q :: rest =>
        match decide (c = 37), value p, value q with
        | true, some a, some b => UInt8.ofNat (a * 16 + b) :: plainDecode rest
        | _, _, _ => c :: plainDecode (p :: q :: rest)
      | text => c :: plainDecode text

/-- Every percent sign is followed by two hexadecimal digits. -/
def EscapesComplete : List UInt8 → Prop
  | [] => True
  | c :: text =>
    (c = 37 → 2 ≤ text.length ∧ (text.take 2).all fun d => (value d).isSome) ∧ EscapesComplete text

instance decidableEscapesComplete : DecidablePred EscapesComplete
  | [] => inferInstanceAs (Decidable True)
  | _ :: text =>
    have := decidableEscapesComplete text
    inferInstanceAs (Decidable (_ ∧ _))

example : plainDecode [97, 43, 37, 52, 49, 32, 98] = [97, 32, 65] := by decide

section Equations

variable {c : UInt8}

theorem plainDecode_end (hend : c = 0 ∨ isSpace c) (text : List UInt8) :
    plainDecode (c :: text) = [] := by
  rw [plainDecode.eq_def]
  exact if_pos hend

theorem plainDecode_plus (text : List UInt8) :
    plainDecode (43 :: text) = 32 :: plainDecode text := by
  rw [plainDecode.eq_def]
  rfl

theorem plainDecode_escape {p q : UInt8} {a b : ℕ} (hp : value p = some a) (hq : value q = some b)
    (rest : List UInt8) :
    plainDecode (37 :: p :: q :: rest) = UInt8.ofNat (a * 16 + b) :: plainDecode rest := by
  rw [plainDecode.eq_def]
  simp only [hp, hq]
  rfl

theorem plainDecode_char (hend : ¬(c = 0 ∨ isSpace c)) (hplus : c ≠ 43) (hpercent : c ≠ 37)
    (text : List UInt8) : plainDecode (c :: text) = c :: plainDecode text := by
  rw [plainDecode.eq_def]
  simp only [if_neg hend, if_neg hplus, decide_eq_false hpercent]
  split <;> rfl

end Equations

/-- Behind any number of characters, every percent sign is followed by two digits still. -/
theorem EscapesComplete.drop {text : List UInt8} (h : EscapesComplete text) (n : ℕ) :
    EscapesComplete (text.drop n) := by
  induction n generalizing text with
  | zero => exact h
  | succ n ih =>
    cases text with
    | nil => exact trivial
    | cons c text => exact ih h.2

/-- The number that `uri_unescape` makes of a hexadecimal digit is its value. -/
theorem digitOf_eq {c : UInt8} {d : ℕ} (h : value c = some d) : digitOf c = UInt8.ofNat d := by
  have hupper : ∀ d < 16, digitOf (digit 65 d) = UInt8.ofNat d := by decide
  have hlower : ∀ d < 16, digitOf (digit 97 d) = UInt8.ofNat d := by decide
  obtain ⟨hd, rfl | rfl⟩ := eq_digit_of_value h
  · exact hupper d hd
  · exact hlower d hd

/-- The digits of an escape make the byte that they name. -/
theorem digits_eq {p q : UInt8} {a b : ℕ} (hp : value p = some a) (hq : value q = some b) :
    digitOf p * 16 + digitOf q = UInt8.ofNat (a * 16 + b) := by
  rw [digitOf_eq hp, digitOf_eq hq, UInt8.ofNat_add, UInt8.ofNat_mul]
  rfl

/-- A character that has a value is neither the end of a string nor a plus sign. -/
theorem ne_of_value {c : UInt8} {d : ℕ} (h : value c = some d) : c ≠ 0 ∧ c ≠ 43 := by
  constructor <;>
  · rintro rfl
    simp [value] at h

variable {todo post front block : List UInt8} {stop : UInt8} {src dst : ℕ}

/-- A step of the second loop is a step of the plain decoder. -/
theorem unescapeByte_decoded (hescapes : EscapesComplete todo) (hstop : stop = 0 ∨ isSpace stop)
    (post : List UInt8) :
    (unescapeByte (todo ++ stop :: post) = some none ∧ plainDecode todo = []) ∨
      ∃ chr n, unescapeByte (todo ++ stop :: post) = some (some (chr, n)) ∧ 0 < n ∧
        n ≤ todo.length ∧ plainDecode todo = chr :: plainDecode (todo.drop n) := by
  cases todo with
  | nil => exact .inl ⟨unescapeByte_end hstop post, rfl⟩
  | cons c text =>
    rw [List.cons_append]
    by_cases hend : c = 0 ∨ isSpace c
    · exact .inl ⟨unescapeByte_end hend _, plainDecode_end hend text⟩
    · right
      by_cases hpercent : c = 37
      · -- Two digits follow, which the lookahead finds.
        subst hpercent
        obtain ⟨hlength, hdigits⟩ := hescapes.1 rfl
        match text, hlength, hdigits with
        | p :: q :: rest, _, hdigits =>
          simp only [List.take_succ_cons, List.take_zero, List.all_cons, List.all_nil,
            Bool.and_true, Bool.and_eq_true, Option.isSome_iff_exists] at hdigits
          obtain ⟨⟨a, hp⟩, ⟨b, hq⟩⟩ := hdigits
          refine ⟨digitOf p * 16 + digitOf q, 3, ?_, by decide, by simp, ?_⟩
          · exact unescapeByte_escape (ne_of_value hp).1 (ne_of_value hq).1 _
          · rw [plainDecode_escape hp hq, digits_eq hp hq]
            rfl
      · refine ⟨_, 1, unescapeByte_char hend hpercent _, Nat.one_pos, by simp, ?_⟩
        by_cases hplus : c = 43
        · subst hplus
          exact plainDecode_plus text
        · rw [plainDecode_char hend hplus hpercent, if_neg hplus]
          rfl

theorem unescapeFrom_end (hbyte : unescapeByte (block.drop src) = some none) :
    unescapeFrom block src dst = put block dst 0 := by
  rw [unescapeFrom]
  split <;> simp_all

theorem unescapeFrom_byte {chr : UInt8} {n : ℕ}
    (hbyte : unescapeByte (block.drop src) = some (some (chr, n))) :
    unescapeFrom block src dst =
      if dst < block.length then unescapeFrom (block.set dst chr) (src + n) (dst + 1)
      else none := by
  rw [unescapeFrom]
  split <;> simp_all

/-- The second loop leaves what the plain decoder makes of the characters that it reads, and a
zero behind it. -/
theorem exists_unescapeFrom_decoded (hescapes : EscapesComplete todo)
    (hstop : stop = 0 ∨ isSpace stop) (hblock : block.drop src = todo ++ stop :: post)
    (hdst : dst ≤ src) :
    ∃ block', unescapeFrom block src dst = some block' ∧
      block.take dst ++ (plainDecode todo ++ [0]) <+: block' := by
  induction hlength : todo.length using Nat.strong_induction_on
    generalizing todo block src dst with
  | _ k ih =>
    have hsrc : src < block.length := by
      have hsize := congrArg List.length hblock
      rw [List.length_drop, List.length_append, List.length_cons] at hsize
      omega
    have hstep := unescapeByte_decoded hescapes hstop post
    rw [← hblock] at hstep
    obtain ⟨hbyte, hdecode⟩ | ⟨chr, n, hbyte, hpos, hle, hdecode⟩ := hstep
    · rw [unescapeFrom_end hbyte, put, if_pos (by omega), hdecode, List.nil_append,
        List.set_eq_take_append_cons_drop, if_pos (by omega)]
      exact ⟨_, rfl, _, by rw [List.append_assoc]; rfl⟩
    · rw [unescapeFrom_byte hbyte, if_pos (by omega)]
      have hnext : (block.set dst chr).drop (src + n) = todo.drop n ++ stop :: post := by
        rw [List.drop_set, if_pos (by omega), ← List.drop_drop, hblock,
          List.drop_append_of_le_length hle]
      have hlt : (todo.drop n).length < k := by
        rw [List.length_drop]
        omega
      obtain ⟨block', hrun, hleft⟩ :=
        ih _ hlt (hescapes.drop n) hnext (show dst + 1 ≤ src + n by omega) rfl
      refine ⟨block', hrun, ?_⟩
      have htake : (block.set dst chr).take (dst + 1) = block.take dst ++ [chr] := by
        have hfront : (block.take dst ++ [chr]).length = dst + 1 := by
          rw [List.length_append, List.length_take_of_le (by omega), List.length_singleton]
        rw [List.set_eq_take_append_cons_drop, if_pos (by omega), List.append_cons,
          List.take_left' hfront]
      rwa [htake, List.append_assoc, List.singleton_append, ← List.cons_append, ← hdecode] at hleft

/-! ### The two loops together -/

/-- Whether the first loop of `uri_unescape` goes on at a character. -/
def skips (c : UInt8) : Bool := !(c = 0 ∨ isSpace c ∨ c = 37)

/-- `uri_unescape` leaves the characters that it skips, and behind them what the plain decoder
makes of the others. -/
theorem exists_uriUnescape_decoded {s : List UInt8} (hescapes : EscapesComplete s)
    (hstop : stop = 0 ∨ isSpace stop) (front post : List UInt8) :
    ∃ block', uriUnescape (front ++ (s ++ stop :: post)) front.length = some block' ∧
      front ++ (s.takeWhile skips ++ (plainDecode (s.dropWhile skips) ++ [0])) <+: block' := by
  have hstops : decide (stop = 0 ∨ isSpace stop ∨ stop = 37) = true := by
    rw [decide_eq_true_iff]
    tauto
  have hspan : span (fun c => c = 0 ∨ isSpace c ∨ c = 37) (s ++ stop :: post) =
      some (s.takeWhile skips).length := span_eq hstops s post
  have hsplit := List.takeWhile_append_dropWhile (p := skips) (l := s)
  generalize s.takeWhile skips = skipped at hspan hsplit ⊢
  generalize s.dropWhile skips = rest at hsplit ⊢
  have hrest : EscapesComplete rest := by
    have hdrop := hescapes.drop skipped.length
    rwa [← hsplit, List.drop_left] at hdrop
  have hfront : (front ++ skipped).length = front.length + skipped.length := List.length_append
  have hblock : front ++ (s ++ stop :: post) = (front ++ skipped) ++ (rest ++ stop :: post) := by
    rw [← hsplit, List.append_assoc, List.append_assoc]
  have hdrop : (front ++ (s ++ stop :: post)).drop (front.length + skipped.length) =
      rest ++ stop :: post := by
    rw [hblock, ← hfront, List.drop_left]
  obtain ⟨block', hrun, hleft⟩ := exists_unescapeFrom_decoded hrest hstop hdrop (Nat.le_refl _)
  refine ⟨block', ?_, ?_⟩
  · rw [uriUnescape, List.drop_left, hspan]
    exact hrun
  · rwa [hblock, ← hfront, List.take_left, List.append_assoc] at hleft

/-- What the plain decoder makes of the characters that are skipped and of the others. -/
theorem plainDecode_split (s : List UInt8) :
    plainDecode s = ((s.takeWhile skips).map fun c => if c = 43 then 32 else c) ++
      plainDecode (s.dropWhile skips) := by
  induction s with
  | nil => rfl
  | cons c s ih =>
    rw [List.takeWhile_cons, List.dropWhile_cons]
    split
    · next hc =>
      simp only [skips, Bool.not_eq_true', decide_eq_false_iff_not, not_or] at hc
      rw [List.map_cons, List.cons_append, ← ih]
      by_cases hplus : c = 43
      · subst hplus
        exact plainDecode_plus s
      · rw [plainDecode_char (by tauto) hplus hc.2.2, if_neg hplus]
    · rfl

/-- The plain decoder leaves characters that are skipped exactly when no plus sign is among
them. -/
theorem map_plus_eq_iff (skipped : List UInt8) :
    (skipped.map fun c => if c = 43 then 32 else c) = skipped ↔ 43 ∉ skipped := by
  induction skipped with
  | nil => simp
  | cons c skipped ih =>
    rw [List.map_cons, List.cons.injEq, ih, List.mem_cons, not_or]
    by_cases hplus : c = 43
    · simp [hplus]
    · simp [hplus, eq_comm]

/-- A run of `uri_unescape` leaves the bytes and a zero at the place of the string, and what is
before it as it was. -/
def Leaves (block : List UInt8) (uri : ℕ) (bytes : List UInt8) : Prop :=
  ∃ block', uriUnescape block uri = some block' ∧ block'.take uri = block.take uri ∧
    bytes ++ [0] <+: block'.drop uri

/-- Of the lists of one length, a run leaves only one. -/
theorem leaves_iff {s bytes : List UInt8} (hescapes : EscapesComplete s)
    (hstop : stop = 0 ∨ isSpace stop) (hlength : bytes.length = (plainDecode s).length)
    (front post : List UInt8) :
    Leaves (front ++ (s ++ stop :: post)) front.length bytes ↔
      bytes = s.takeWhile skips ++ plainDecode (s.dropWhile skips) := by
  obtain ⟨block', hrun, tail, htail⟩ := exists_uriUnescape_decoded hescapes hstop front post
  rw [plainDecode_split, List.length_append, List.length_map, ← List.length_append] at hlength
  rw [List.append_assoc, ← List.append_assoc (s.takeWhile skips)] at htail
  generalize s.takeWhile skips ++ plainDecode (s.dropWhile skips) = left at hlength htail ⊢
  have hblock : block'.drop front.length = left ++ [0] ++ tail := by
    rw [← htail, List.drop_left]
  rw [Leaves]
  constructor
  · rintro ⟨_, hrun', -, hbytes⟩
    cases hrun.symm.trans hrun'
    rw [hblock] at hbytes
    have hfront := List.prefix_of_prefix_length_le hbytes (List.prefix_append _ _)
      (by simp [hlength])
    exact List.append_inj_left' (hfront.eq_of_length (by simp [hlength])) rfl
  · rintro rfl
    refine ⟨block', hrun, ?_, ?_⟩
    · rw [← htail, List.take_left, List.take_left]
    · rw [hblock]
      exact List.prefix_append _ _

/-- On a string in which every percent sign is followed by two digits, `uri_unescape` leaves what
the plain decoder gives exactly when no plus sign stands among the characters that its first loop
skips. -/
theorem uriUnescape_eq_plainDecode_iff {s : List UInt8} (hescapes : EscapesComplete s)
    (front post : List UInt8) :
    Leaves (front ++ (s ++ 0 :: post)) front.length (plainDecode s) ↔ 43 ∉ s.takeWhile skips := by
  rw [leaves_iff hescapes (.inl rfl) rfl, plainDecode_split s, List.append_left_inj,
    map_plus_eq_iff]

/-- The string `%41`, behind which a plus sign may follow. -/
theorem uriUnescape_eq_plainDecode_percent :
    Leaves [37, 52, 49, 43, 0] 0 (plainDecode [37, 52, 49, 43]) :=
  (uriUnescape_eq_plainDecode_iff (s := [37, 52, 49, 43]) (by decide) [] []).mpr (by decide)

/-- In the string `a+b` the plus sign stays. -/
theorem not_leaves_plus :
    EscapesComplete [97, 43, 98] ∧ ¬Leaves [97, 43, 98, 0] 0 (plainDecode [97, 43, 98]) := by
  have hescapes : EscapesComplete [97, 43, 98] := by decide
  refine ⟨hescapes, fun hleaves => ?_⟩
  have heq := (leaves_iff hescapes (.inl rfl) rfl [] []).mp hleaves
  exact absurd heq (by decide)

/-! ### Encoding and decoding -/

/-- The ways to write a string: a character may stand for itself unless it is a percent sign, a
plus sign or white space, and every byte may be written as a percent sign and two digits, each of
them in either case. -/
inductive Encodes : List UInt8 → List UInt8 → Prop
  | nil : Encodes [] []
  | char {c : UInt8} {bytes text : List UInt8} (hspace : ¬isSpace c) (hplus : c ≠ 43)
      (hpercent : c ≠ 37) (htail : Encodes bytes text) : Encodes (c :: bytes) (c :: text)
  | escape {c p q : UInt8} {bytes text : List UInt8} (hp : value p = some (c.toNat / 16))
      (hq : value q = some (c.toNat % 16)) (htail : Encodes bytes text) :
      Encodes (c :: bytes) (37 :: p :: q :: text)

variable {bytes text : List UInt8}

/-- In an encoded string every percent sign is followed by two digits. -/
theorem Encodes.escapesComplete (h : Encodes bytes text) : EscapesComplete text := by
  induction h with
  | nil => exact trivial
  | char _ _ hpercent _ ih => exact ⟨fun hc => absurd hc hpercent, ih⟩
  | escape hp hq _ ih =>
    have hpercent {d : UInt8} {v : ℕ} (hd : value d = some v) : d ≠ 37 := by
      rintro rfl
      simp [value] at hd
    refine ⟨fun _ => ⟨by simp, by simp [hp, hq]⟩, ?_, ?_, ih⟩
    · exact fun hc => absurd hc (hpercent hp)
    · exact fun hc => absurd hc (hpercent hq)

/-- In an encoded string no plus sign stands for itself. -/
theorem Encodes.plus_notMem (h : Encodes bytes text) : 43 ∉ text := by
  induction h with
  | nil => exact List.not_mem_nil
  | char _ hplus _ _ ih => simpa using ⟨hplus.symm, ih⟩
  | escape hp hq _ ih =>
    simpa using ⟨(ne_of_value hp).2.symm, (ne_of_value hq).2.symm, ih⟩

/-- The plain decoder gives back a string without a zero. -/
theorem Encodes.plainDecode_eq (h : Encodes bytes text) (hzero : 0 ∉ bytes) :
    plainDecode text = bytes := by
  induction h with
  | nil => rfl
  | char hspace hplus hpercent _ ih =>
    obtain ⟨hc, htail⟩ := not_or.mp (List.mem_cons.not.mp hzero)
    rw [plainDecode_char (not_or.mpr ⟨fun h => hc h.symm, hspace⟩) hplus hpercent, ih htail]
  | @escape c p q bytes text hp hq _ ih =>
    obtain ⟨-, htail⟩ := not_or.mp (List.mem_cons.not.mp hzero)
    rw [plainDecode_escape hp hq, ih htail, ofNat_halves]

/-- However a string without a zero is written, in front of a blank or a zero `uri_unescape`
leaves the string, and a zero behind it. -/
theorem uriUnescape_encoded (hzero : 0 ∉ bytes) (hencodes : Encodes bytes text)
    (hstop : stop = 32 ∨ stop = 0) (front post : List UInt8) :
    Leaves (front ++ (text ++ stop :: post)) front.length bytes := by
  have hend : stop = 0 ∨ isSpace stop := by
    rcases hstop with rfl | rfl
    · exact .inr rfl
    · exact .inl rfl
  have hdecode := hencodes.plainDecode_eq hzero
  rw [leaves_iff hencodes.escapesComplete hend (by rw [hdecode])]
  -- No plus sign is skipped, so the two loops together are the plain decoder.
  have hplus : 43 ∉ text.takeWhile skips := fun h =>
    hencodes.plus_notMem ((List.takeWhile_sublist _).mem h)
  rw [← hdecode, plainDecode_split text, (map_plus_eq_iff _).mpr hplus]

/-- The string `a+b` with its plus sign written `%2b`, in front of a blank. -/
theorem uriUnescape_encoded_plus : Encodes [97, 43, 98] [97, 37, 50, 98, 98] ∧
      Leaves [47, 97, 37, 50, 98, 98, 32, 72] 1 [97, 43, 98] := by
  have hencodes : Encodes [97, 43, 98] [97, 37, 50, 98, 98] :=
    .char (by decide) (by decide) (by decide)
      (.escape rfl rfl (.char (by decide) (by decide) (by decide) .nil))
  exact ⟨hencodes, uriUnescape_encoded (by decide) hencodes (.inl rfl) [47] [72]⟩

end Hack.NatServer
