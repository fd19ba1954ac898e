import Mathlib.Data.Nat.Notation
import Mathlib.Logic.Function.Basic

/-!
# JSON as the Go standard library reads it

The scanner of `encoding/json` is a state machine fed with one character at a
time, and so is this one: a lexer that emits the tokens completed by a character
and a stack of open arrays and objects that consumes them. `parse` accepts a text
that is one value, as `Unmarshal` requires, and `parseFirst` stops after the first
value of a text, as a `Decoder` does. Decoding into a struct with string fields
ignores unknown names, prefers an exact match of a name over a match up to case,
leaves a field unchanged on `null`, lets the last of several members win, and
reports every other kind of value as a mismatch.
-/

namespace Hack.GoJson

/-- A JSON value, numbers kept as text. -/
inductive Value
  | null
  | bool (b : Bool)
  | number (text : List Char)
  | string (s : String)
  | array (elements : List Value)
  | object (members : List (String × Value))

/-- A unit of a string literal: a character, or the code unit of a `\u` escape. -/
inductive StringUnit
  | char (c : Char)
  | code (u : ℕ)

/-- The character of a single code unit, a surrogate being replaced. -/
def codeChar (u : ℕ) : Char :=
  if 0xD800 ≤ u ∧ u < 0xE000 then Char.ofNat 0xFFFD else Char.ofNat u

/-- The characters of a string literal, surrogate pairs being combined. -/
def decodeUnits : List StringUnit → List Char
  | [] => []
  | .char c :: units => c :: decodeUnits units
  | .code u :: .code w :: units =>
    if 0xD800 ≤ u ∧ u < 0xDC00 ∧ 0xDC00 ≤ w ∧ w < 0xE000 then
      Char.ofNat (0x10000 + (u - 0xD800) * 0x400 + (w - 0xDC00)) :: decodeUnits units
    else codeChar u :: decodeUnits (.code w :: units)
  | .code u :: units => codeChar u :: decodeUnits units

/-- The tokens of a JSON text. -/
inductive Token
  | openArray
  | closeArray
  | openObject
  | closeObject
  | colon
  | comma
  | text (s : String)
  | scalar (v : Value)

/-- How far a number has been read. -/
inductive NumberPhase
  | minus
  | zero
  | digits
  | point
  | fraction
  | exponent
  | exponentSign
  | exponentDigits

/-- The phase of a number after one more character, if that continues it. -/
def NumberPhase.step (phase : NumberPhase) (c : Char) : Option NumberPhase :=
  match phase with
  | .minus => if c = '0' then some .zero else if c.isDigit then some .digits else none
  | .zero => if c = '.' then some .point else if c = 'e' ∨ c = 'E' then some .exponent else none
  | .digits =>
    if c.isDigit then some .digits else if c = '.' then some .point
    else if c = 'e' ∨ c = 'E' then some .exponent else none
  | .point => if c.isDigit then some .fraction else none
  | .fraction =>
    if c.isDigit then some .fraction else if c = 'e' ∨ c = 'E' then some .exponent else none
  | .exponent =>
    if c = '+' ∨ c = '-' then some .exponentSign
    else if c.isDigit then some .exponentDigits else none
  | .exponentSign => if c.isDigit then some .exponentDigits else none
  | .exponentDigits => if c.isDigit then some .exponentDigits else none

/-- Whether a number may end in a phase. -/
def NumberPhase.mayEnd : NumberPhase → Bool
  | .zero | .digits | .fraction | .exponentDigits => true
  | .minus | .point | .exponent | .exponentSign => false

/-- Where the lexer is; partial literals are kept in reverse. -/
inductive LexMode
  /-- Between tokens. -/
  | between
  /-- In a string literal. -/
  | inString (units : List StringUnit)
  /-- After a backslash. -/
  | escape (units : List StringUnit)
  /-- In a `\u` escape with some digits left to read. -/
  | hex (units : List StringUnit) (left value : ℕ)
  /-- In one of the words `true`, `false` and `null`. -/
  | word (left : List Char) (v : Value)
  /-- In a number. -/
  | number (phase : NumberPhase) (text : List Char)
  /-- After a character that no token can contain there. -/
  | failed

/-- The character a one-letter escape stands for. -/
def escapeChar : Char → Option Char
  | '"' => some '"'
  | '\\' => some '\\'
  | '/' => some '/'
  | 'b' => some (Char.ofNat 8)
  | 'f' => some (Char.ofNat 12)
  | 'n' => some '\n'
  | 'r' => some '\r'
  | 't' => some '\t'
  | _ => none

/-- The value of a hexadecimal digit. -/
def hexDigit (c : Char) : Option ℕ :=
  if c.isDigit then some (c.toNat - '0'.toNat)
  else if 'a' ≤ c ∧ c ≤ 'f' then some (c.toNat - 'a'.toNat + 10)
  else if 'A' ≤ c ∧ c ≤ 'F' then some (c.toNat - 'A'.toNat + 10)
  else none

/-- The tokens completed by a character between tokens, and the mode after it. -/
def lexBetween (c : Char) : List Token × LexMode :=
  match c with
  | ' ' | '\t' | '\r' | '\n' => ([], .between)
  | '[' => ([.openArray], .between)
  | ']' => ([.closeArray], .between)
  | '\x7b' => ([.openObject], .between)
  | '\x7d' => ([.closeObject], .between)
  | ':' => ([.colon], .between)
  | ',' => ([.comma], .between)
  | '"' => ([], .inString [])
  | 't' => ([], .word ['r', 'u', 'e'] (.bool true))
  | 'f' => ([], .word ['a', 'l', 's', 'e'] (.bool false))
  | 'n' => ([], .word ['u', 'l', 'l'] .null)
  | '-' => ([], .number .minus ['-'])
  | '0' => ([], .number .zero ['0'])
  | c => if c.isDigit then ([], .number .digits [c]) else ([], .failed)

/-- The tokens completed by a character in a mode, and the mode after it. -/
def lexStep (mode : LexMode) (c : Char) : List Token × LexMode :=
  match mode with
  | .between => lexBetween c
  | .inString units =>
    if c = '"' then ([.text (.ofList (decodeUnits units.reverse))], .between)
    else if c = '\\' then ([], .escape units)
    else if c.toNat < 0x20 then ([], .failed)
    else ([], .inString (.char c :: units))
  | .escape units =>
    match escapeChar c with
    | some d => ([], .inString (.char d :: units))
    | none => if c = 'u' then ([], .hex units 4 0) else ([], .failed)
  | .hex units left value =>
    match hexDigit c with
    | none => ([], .failed)
    | some d =>
      if left = 1 then ([], .inString (.code (16 * value + d) :: units))
      else ([], .hex units (left - 1) (16 * value + d))
  | .word [] _ => ([], .failed)
  | .word (d :: left) v =>
    if c = d then
      if left.isEmpty then ([.scalar v], .between) else ([], .word left v)
    else ([], .failed)
  | .number phase text =>
    match phase.step c with
    | some phase => ([], .number phase (c :: text))
    | none =>
      if phase.mayEnd then
        let next := lexBetween c
        (.scalar (.number text.reverse) :: next.1, next.2)
      else ([], .failed)
  | .failed => ([], .failed)

/-- An array or object that is being read, its members kept in reverse. -/
inductive Frame
  /-- An array with its elements so far. -/
  | elements (values : List Value)
  /-- An object with its members so far and the name of the current one. -/
  | member (members : List (String × Value)) (key : String)

/-- What the parser expects next, inside the open containers of a stack. -/
inductive ParseState
  /-- A value. -/
  | value (stack : List Frame)
  /-- The first element of an array, or its end. -/
  | elementOrClose (stack : List Frame)
  /-- The first name of an object, or its end. -/
  | nameOrClose (stack : List Frame)
  /-- The next name of an object. -/
  | name (members : List (String × Value)) (stack : List Frame)
  /-- The colon after a name. -/
  | colon (members : List (String × Value)) (key : String) (stack : List Frame)
  /-- A comma or the end of the innermost container, which has a further value. -/
  | next (v : Value) (frame : Frame) (stack : List Frame)
  /-- Nothing: the text is a value, and the flag tells whether more tokens came. -/
  | done (v : Value) (trailing : Bool)
  /-- Nothing: the tokens are not the beginning of a value. -/
  | failed

/-- The deepest nesting of arrays and objects that is accepted. -/
def maxNestingDepth : ℕ := 10000

/-- The state after a completed value. -/
def ParseState.completed (v : Value) : List Frame → ParseState
  | [] => .done v false
  | frame :: stack => .next v frame stack

/-- The state after the first token of a value. -/
def ParseState.beginValue (stack : List Frame) : Token → ParseState
  | .openArray => if stack.length < maxNestingDepth then .elementOrClose stack else .failed
  | .openObject => if stack.length < maxNestingDepth then .nameOrClose stack else .failed
  | .text s => .completed (.string s) stack
  | .scalar v => .completed v stack
  | .closeArray | .closeObject | .colon | .comma => .failed

/-- The parser after one token. -/
def ParseState.step (state : ParseState) (token : Token) : ParseState :=
  match state, token with
  | .value stack, token => .beginValue stack token
  | .elementOrClose stack, .closeArray => .completed (.array []) stack
  | .elementOrClose stack, token => .beginValue (.elements [] :: stack) token
  | .nameOrClose stack, .closeObject => .completed (.object []) stack
  | .nameOrClose stack, .text s => .colon [] s stack
  | .name members stack, .text s => .colon members s stack
  | .colon members key stack, .colon => .value (.member members key :: stack)
  | .next v (.elements vs) stack, .comma => .value (.elements (v :: vs) :: stack)
  | .next v (.elements vs) stack, .closeArray => .completed (.array (v :: vs).reverse) stack
  | .next v (.member members key) stack, .comma => .name ((key, v) :: members) stack
  | .next v (.member members key) stack, .closeObject =>
    .completed (.object ((key, v) :: members).reverse) stack
  | .done v _, _ => .done v true
  | _, _ => .failed

/-- The scanner: the lexer and the parser behind it. -/
structure Scanner where
  /-- Where the lexer is. -/
  mode : LexMode
  /-- What the parser expects. -/
  state : ParseState

/-- The scanner before the first character. -/
def Scanner.initial : Scanner := ⟨.between, .value []⟩

/-- The scanner after one character. -/
def Scanner.step (s : Scanner) (c : Char) : Scanner :=
  let lexed := lexStep s.mode c
  ⟨lexed.2, lexed.1.foldl ParseState.step s.state⟩

/-- The value of a text that consists of exactly one value. The end of the text
counts as one more blank, which ends a number. -/
def parse (text : String) : Option Value :=
  match (text.toList.foldl Scanner.step .initial).step ' ' with
  | ⟨.between, .done v false⟩ => some v
  | _ => none

/-- The first value completed by a scanner on some characters. -/
def Scanner.first (s : Scanner) : List Char → Option Value
  | [] =>
    match (s.step ' ').state with
    | .done v _ => some v
    | _ => none
  | c :: cs =>
    match (s.step c).state with
    | .done v _ => some v
    | _ => (s.step c).first cs

/-- The first value of a text, whatever follows it. -/
def parseFirst (text : String) : Option Value := Scanner.initial.first text.toList

/-- Why a text could not be decoded into a struct. -/
inductive DecodeError
  /-- The text is not JSON. -/
  | malformed
  /-- The value is not an object, or the named field is not a string. -/
  | mismatch (field : String)
deriving DecidableEq

/-- Case folding of a character as far as it can meet an ASCII letter: the long s
and the Kelvin sign are the only other characters that fold to one. -/
def foldChar (c : Char) : Char :=
  if c = Char.ofNat 0x17F then 'S' else if c = Char.ofNat 0x212A then 'K' else c.toUpper

/-- The field a member name is decoded into: the one of exactly that name, or else
the first one that agrees with it up to case. -/
def matchField (names : List String) (key : String) : Option String :=
  if key ∈ names then some key
  else names.find? fun name => name.toList.map foldChar = key.toList.map foldChar

/-- The string fields of a struct after decoding the members of an object. -/
def assignMembers (names : List String) (fields : String → String) :
    List (String × Value) → Except DecodeError (String → String)
  | [] => .ok fields
  | (key, v) :: members =>
    match matchField names key, v with
    | none, _ => assignMembers names fields members
    | some name, .string s => assignMembers names (Function.update fields name s) members
    | some _, .null => assignMembers names fields members
    | some name, _ => .error (.mismatch name)

/-- The string fields of a struct after decoding a value into it. -/
def assign (names : List String) (fields : String → String) :
    Value → Except DecodeError (String → String)
  | .null => .ok fields
  | .object members => assignMembers names fields members
  | _ => .error (.mismatch "")

/-- `Unmarshal` of a text into a struct with string fields. -/
def unmarshal (names : List String) (fields : String → String) (text : String) :
    Except DecodeError (String → String) :=
  match parse text with
  | none => .error .malformed
  | some v => assign names fields v

/-- A value that a string field can be decoded from. -/
def Value.isText : Value → Bool
  | .null => true
  | .string _ => true
  | .bool _ => false
  | .number _ => false
  | .array _ => false
  | .object _ => false

/-- Every member that is decoded into a field has a value for it. -/
def Decodes (names : List String) (members : List (String × Value)) : Prop :=
  ∀ member ∈ members, (matchField names member.1).isSome → member.2.isText = true

/-- The string that a member gives to a field. -/
def memberString (names : List String) (name : String) (member : String × Value) : Option String :=
  match matchField names member.1, member.2 with
  | some field, .string s => if field = name then some s else none
  | _, _ => none

/-- The string that the members of an object give to a field: the last one, if there is any. -/
def lastString (names : List String) (name : String) (members : List (String × Value)) :
    Option String :=
  members.reverse.findSome? (memberString names name)

/-- The members before others have a say only if those have none. -/
theorem lastString_cons (names : List String) (name : String) (member : String × Value)
    (members : List (String × Value)) :
    lastString names name (member :: members) =
      (lastString names name members).or (memberString names name member) := by
  rw [lastString, List.reverse_cons, List.findSome?_append, List.findSome?_singleton, lastString]

variable {names : List String} {members : List (String × Value)}

/-- Decoding sets the fields that have a last string and leaves the others. -/
theorem assignMembers_of_decodes (h : Decodes names members) (fields : String → String) :
    assignMembers names fields members =
      .ok fun name => (lastString names name members).getD (fields name) := by
  induction members generalizing fields with
  | nil => rfl
  | cons member members ih =>
    obtain ⟨key, v⟩ := member
    obtain ⟨hmember, hmembers⟩ := List.forall_mem_cons.mp h
    simp only [lastString_cons, memberString, assignMembers]
    cases hfield : matchField names key with
    | none => simp only [ih hmembers, Option.or_none]
    | some field =>
      have htext : v.isText = true := hmember (by rw [hfield]; rfl)
      cases v with
      | null => simp only [ih hmembers, Option.or_none]
      | string s =>
        simp only [ih hmembers]
        congr 1
        funext name
        cases lastString names name members with
        | some last => rfl
        | none =>
          rcases eq_or_ne field name with rfl | hne
          · simp
          · simp [hne, hne.symm]
      | bool _ => cases htext
      | number _ => cases htext
      | array _ => cases htext
      | object _ => cases htext

/-- Decoding fails on a member with a value that is no string, whatever the fields were. -/
theorem assignMembers_of_not_decodes (h : ¬Decodes names members) (fields : String → String) :
    ∃ error, assignMembers names fields members = .error error := by
  induction members generalizing fields with
  | nil => exact absurd (fun member hmember => by cases hmember) h
  | cons member members ih =>
    obtain ⟨key, v⟩ := member
    have hcons : ((matchField names key).isSome → v.isText = true) → ¬Decodes names members :=
      fun hmember hmembers => h (List.forall_mem_cons.mpr ⟨hmember, hmembers⟩)
    simp only [assignMembers]
    cases hfield : matchField names key with
    | none => exact ih (hcons fun hsome => by simp [hfield] at hsome) fields
    | some field =>
      cases v with
      | null => exact ih (hcons fun _ => rfl) fields
      | string s => exact ih (hcons fun _ => rfl) _
      | bool _ => exact ⟨_, rfl⟩
      | number _ => exact ⟨_, rfl⟩
      | array _ => exact ⟨_, rfl⟩
      | object _ => exact ⟨_, rfl⟩

/-- One `Decode` of a `Decoder` on a text into a struct with string fields. -/
def decode (names : List String) (fields : String → String) (text : String) :
    Except DecodeError (String → String) :=
  match parseFirst text with
  | none => .error .malformed
  | some v => assign names fields v

end Hack.GoJson
