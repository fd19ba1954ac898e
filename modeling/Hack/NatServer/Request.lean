import Hack.CString
import Hack.Strtok

/-!
# Parsing a request

This file embeds the parser of `nat-server/nat_httpd.c`: `respond` from the received bytes up to
the payload, `uri_unescape` and `request_header`. The buffer is the list of its bytes, of which
those behind the received ones are arbitrary, and a pointer into it is an offset. A null pointer
that is dereferenced and an access outside of the buffer or of the table of headers are faults,
and a call that faults has no result.
-/

namespace Hack.NatServer

open CString Strtok

/-- `BUF_SIZE`. -/
def bufSize : ℕ := 65535

/-- The delimiters of the method and of the protocol: blank, tab, carriage return, newline. -/
def wordDelim : List UInt8 := [32, 9, 13, 10]

/-- The delimiters of the URI: blank and tab. -/
def uriDelim : List UInt8 := [32, 9]

/-- The delimiters of the name of a header, with the colon. -/
def nameDelim : List UInt8 := [13, 10, 58, 32, 9]

/-- The delimiters of the value of a header. -/
def lineDelim : List UInt8 := [13, 10]

/-- A pointer in the table of headers: null, to the empty string that the first entry begins
with, or into the buffer. -/
inductive Pointer
  | null
  | literal
  | buf (offset : ℕ)
deriving DecidableEq

/-- `header_t`. -/
structure Header where
  name : Pointer
  value : Pointer
deriving DecidableEq

/-- The table `reqhdr` of a process that has answered no request yet. -/
def initialReqhdr : List Header := ⟨.literal, .literal⟩ :: List.replicate 16 ⟨.null, .null⟩

/-- The number that `uri_unescape` makes of a digit, which it takes for a hexadecimal one. -/
def digitOf (c : UInt8) : UInt8 := (c &&& 15) + 9 * if 57 < c ∧ c < 128 then 1 else 0

/-- One step of `uri_unescape` on the bytes that are left: the byte to write and how many are
read for it, or none at the end. -/
def unescapeByte : List UInt8 → Option (Option (UInt8 × ℕ))
  | [] => none
  | c :: text =>
    if c = 0 ∨ isSpace c then some none
    else if c = 43 then some (some (32, 1))
    else if c = 37 then
      match text with
      | [] => none
      | c₁ :: text =>
        if c₁ = 0 then some (some (c, 1))
        else
          match text with
          | [] => none
          | c₂ :: _ =>
            if c₂ = 0 then some (some (c, 1))
            else some (some (digitOf c₁ * 16 + digitOf c₂, 3))
    else some (some (c, 1))

section UnescapeByte

variable {c p q : UInt8}

theorem unescapeByte_end (hend : c = 0 ∨ isSpace c) (text : List UInt8) :
    unescapeByte (c :: text) = some none := by
  rw [unescapeByte.eq_def]
  exact if_pos hend

theorem unescapeByte_char (hend : ¬(c = 0 ∨ isSpace c)) (hpercent : c ≠ 37) (text : List UInt8) :
    unescapeByte (c :: text) = some (some (if c = 43 then 32 else c, 1)) := by
  rw [unescapeByte.eq_def]
  simp only [if_neg hend, if_neg hpercent]
  split_ifs <;> rfl

theorem unescapeByte_escape (hp : p ≠ 0) (hq : q ≠ 0) (rest : List UInt8) :
    unescapeByte (37 :: p :: q :: rest) = some (some (digitOf p * 16 + digitOf q, 3)) := by
  rw [unescapeByte.eq_def]
  simp only [if_neg hp, if_neg hq]
  rfl

/-- A percent sign at the end of a string is itself. -/
theorem unescapeByte_percent (rest : List UInt8) :
    unescapeByte (37 :: 0 :: rest) = some (some (37, 1)) := rfl

/-- A percent sign with one character behind it is itself. -/
theorem unescapeByte_percent_char (hp : p ≠ 0) (rest : List UInt8) :
    unescapeByte (37 :: p :: 0 :: rest) = some (some (37, 1)) := by
  rw [unescapeByte.eq_def]
  simp only [if_neg hp]
  rfl

end UnescapeByte

/-- A step on a string reads no byte behind it. -/
theorem unescapeByte_cases {todo : List UInt8} (htodo : 0 ∉ todo) (post : List UInt8) :
    unescapeByte (todo ++ 0 :: post) = some none ∨
      ∃ chr n, unescapeByte (todo ++ 0 :: post) = some (some (chr, n)) ∧ 0 < n ∧
        n ≤ todo.length := by
  cases todo with
  | nil => exact .inl (unescapeByte_end (.inl rfl) post)
  | cons c text =>
    rw [List.cons_append]
    by_cases hend : c = 0 ∨ isSpace c
    · exact .inl (unescapeByte_end hend _)
    · right
      by_cases hpercent : c = 37
      · subst hpercent
        -- The lookahead for two digits stops at the end of the string.
        rcases text with _ | ⟨p, _ | ⟨q, rest⟩⟩
        · exact ⟨37, 1, unescapeByte_percent post, by simp⟩
        · have hp : p ≠ 0 := by
            rintro rfl
            simp at htodo
          exact ⟨37, 1, unescapeByte_percent_char hp post, by simp⟩
        · simp only [List.mem_cons, not_or] at htodo
          obtain ⟨-, hp, hq, -⟩ := htodo
          exact ⟨_, 3, unescapeByte_escape (Ne.symm hp) (Ne.symm hq) (rest ++ 0 :: post), by simp⟩
      · exact ⟨_, 1, unescapeByte_char hend hpercent _, by simp⟩

/-- A step that goes on has read a byte. -/
theorem pos_of_unescapeByte {text : List UInt8} {n : ℕ} {chr : UInt8}
    (h : unescapeByte text = some (some (chr, n))) : text ≠ [] ∧ 0 < n := by
  rcases text with _ | ⟨c, _ | ⟨c₁, _ | ⟨c₂, text⟩⟩⟩
  · cases h
  all_goals
    refine ⟨List.cons_ne_nil _ _, ?_⟩
    simp only [unescapeByte] at h
    split_ifs at h <;> cases h <;> decide

/-- The second loop of `uri_unescape`, which writes over what it has read. -/
def unescapeFrom (block : List UInt8) (src dst : ℕ) : Option (List UInt8) :=
  match h : unescapeByte (block.drop src) with
  | none => none
  | some none => put block dst 0
  | some (some (chr, n)) =>
    if dst < block.length then unescapeFrom (block.set dst chr) (src + n) (dst + 1) else none
termination_by block.length - src
decreasing_by
  obtain ⟨hne, hpos⟩ := pos_of_unescapeByte h
  have hlt : src < block.length := by
    rw [← List.drop_eq_nil_iff.not.trans Nat.not_le]
    exact hne
  rw [List.length_set]
  omega

/-- `uri_unescape`. -/
def uriUnescape (block : List UInt8) (uri : ℕ) : Option (List UInt8) := do
  let skipped ← span (fun c => c = 0 ∨ isSpace c ∨ c = 37) (block.drop uri)
  unescapeFrom block (uri + skipped) (uri + skipped)

/-- The query string: behind a question mark, which becomes the end of the URI, or else the
place before the URI. -/
def splitQuery (block : List UInt8) (uri : ℕ) : Option (List UInt8 × ℕ) := do
  let length ← span (fun c => c = 0 ∨ c = 63) (block.drop uri)
  let c ← block[uri + length]?
  if c = 63 then
    let block ← put block (uri + length) 0
    some (block, uri + length + 1)
  else some (block, uri - 1)

/-- The loop over the headers, with the number of entries that it may still write and the entry
that it writes next. -/
def readHeaders : ℕ → ℕ → Scan → List Header → Option (Scan × List Header)
  | 0, _, scan, reqhdr => some (scan, reqhdr)
  | left + 1, h, scan, reqhdr => do
    let (scan, key) ← strtok nameDelim scan
    match key with
    | none => some (scan, reqhdr)
    | some key =>
      let (scan, val) ← strtok lineDelim scan
      -- The value is dereferenced without a look at whether there is one.
      let val ← val
      let spaces ← span (· ≠ 32) (scan.block.drop val)
      let val := val + spaces
      if h < reqhdr.length then
        let reqhdr := reqhdr.set h ⟨.buf key, .buf val⟩
        let length ← span (· = 0) (scan.block.drop val)
        let t := val + 1 + length
        let c₁ ← scan.block[t + 1]?
        if c₁ = 13 then
          let c₂ ← scan.block[t + 2]?
          if c₂ = 10 then some (scan, reqhdr) else readHeaders left (h + 1) scan reqhdr
        else readHeaders left (h + 1) scan reqhdr
      else none

/-- What `respond` has found when it answers a request. -/
structure Parsed where
  block : List UInt8
  method : Option ℕ
  uri : ℕ
  qs : ℕ
  prot : Option ℕ
  reqhdr : List Header
  payload : Option ℕ

/-- `respond` after `recv` has delivered at least one byte, up to the payload, with what the buffer
holds behind the received bytes. -/
def respond (received rest : List UInt8) : Option Parsed := do
  let block ← put (received ++ rest) received.length 0
  let (scan, method) ← strtok wordDelim ⟨block, 0⟩
  let (scan, uri) ← strtok uriDelim scan
  let (scan, prot) ← strtok wordDelim scan
  let uri ← uri
  let block ← uriUnescape scan.block uri
  let (block, qs) ← splitQuery block uri
  let (scan, reqhdr) ← readHeaders 16 0 ⟨block, scan.save⟩ initialReqhdr
  let (scan, payload) ← strtok lineDelim scan
  some ⟨scan.block, method, uri, qs, prot, reqhdr, payload⟩

/-- The string at a pointer. -/
def stringAt (block : List UInt8) : Pointer → Option (List UInt8)
  | .null => none
  | .literal => some []
  | .buf offset => cstr (block.drop offset)

/-- `request_header`, on the entries of the table that are left. -/
def requestHeader (block name : List UInt8) : List Header → Option Pointer
  | [] => none
  | h :: reqhdr =>
    if h.name = .null then some .null
    else (stringAt block h.name).bind fun s =>
      if s = name then some h.value else requestHeader block name reqhdr

end Hack.NatServer
