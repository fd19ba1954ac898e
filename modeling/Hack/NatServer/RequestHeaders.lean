import Hack.NatServer.RequestBounds
import Mathlib.Data.List.Forall2

/-!
# What the lookup of a header returns

A request is a request line, header lines and a blank line. The parser reads the value of a
header as the next bytes that are not line ends. So a header with no value and no blank behind its
colon takes the whole next line for its value, and that line is not read as a header.
-/

namespace Hack.NatServer

open CString Strtok

/-- A request line. -/
structure RequestLine where
  method : List UInt8
  uri : List UInt8
  prot : List UInt8
  method_ne : method ≠ []
  method_plain : ∀ b ∈ method, b ≠ 0 ∧ b ∉ wordDelim
  uri_ne : uri ≠ []
  uri_plain : ∀ b ∈ uri, b ≠ 0 ∧ b ∉ wordDelim
  prot_ne : prot ≠ []
  prot_plain : ∀ b ∈ prot, b ≠ 0 ∧ b ∉ wordDelim

/-- A request line followed by other bytes. -/
def RequestLine.append (line : RequestLine) (rest : List UInt8) : List UInt8 :=
  line.method ++ 32 :: (line.uri ++ 32 :: (line.prot ++ 13 :: 10 :: rest))

/-- A header line: a name, a colon, blanks and a value. -/
structure HeaderLine where
  name : List UInt8
  spaces : ℕ
  value : List UInt8
  name_ne : name ≠ []
  name_plain : ∀ b ∈ name, b ∉ nameDelim
  value_plain : ∀ b ∈ value, b ≠ 0 ∧ b ∉ lineDelim
  value_head : value.head? ≠ some 32
deriving DecidableEq

/-- What a header has behind its colon. -/
def HeaderLine.valuePart (l : HeaderLine) : List UInt8 := List.replicate l.spaces 32 ++ l.value

/-- The text of a header, without the end of its line. -/
def HeaderLine.text (l : HeaderLine) : List UInt8 := l.name ++ 58 :: l.valuePart

/-- A header followed by other bytes. -/
@[simp] def HeaderLine.append (l : HeaderLine) (rest : List UInt8) : List UInt8 :=
  l.name ++ 58 :: (l.valuePart ++ 13 :: 10 :: rest)

/-- Headers followed by other bytes. -/
def appendHeaders (headers : List HeaderLine) (rest : List UInt8) : List UInt8 :=
  headers.foldr HeaderLine.append rest

/-- A first header before others. -/
theorem appendHeaders_cons (l : HeaderLine) (ls : List HeaderLine) (rest : List UInt8) :
    appendHeaders (l :: ls) rest = l.append (appendHeaders ls rest) := rfl

/-- A request: a request line, headers and a blank line. -/
def requestText (line : RequestLine) (headers : List HeaderLine) : List UInt8 :=
  line.append (appendHeaders headers [13, 10])

variable {text front more post : List UInt8}

/-- A word at the front of a text. -/
theorem next_word {delim word : List UInt8} {c : UInt8} (hword : ∀ b ∈ word, b ≠ 0 ∧ b ∉ delim)
    (hne : word ≠ []) (hc : c ∈ delim) (hdelim : 0 ∉ delim) (more : List UInt8) :
    token delim (word ++ c :: more) = word ∧ next delim (word ++ c :: more) = more := by
  have hnil : ∀ b ∈ ([] : List UInt8), b ∈ delim := by simp
  obtain ⟨-, htoken, -⟩ := parts_eq hnil hword (.inr hc) (.inl hne) hdelim more
  obtain ⟨hnext, -⟩ := next_eq hnil hword hne hc hdelim more
  exact ⟨htoken, hnext⟩

/-- The request line is read up to its end of line. -/
theorem RequestLine.headersText_append (line : RequestLine) (rest : List UInt8) :
    token uriDelim (next wordDelim (line.append rest)) = line.uri ∧
      headersText (line.append rest) = 10 :: rest := by
  have huri : ∀ b ∈ line.uri, b ≠ 0 ∧ b ∉ uriDelim := fun b hb =>
    ⟨(line.uri_plain b hb).1, fun h => (line.uri_plain b hb).2 (List.mem_append_left [13, 10] h)⟩
  obtain ⟨-, hmethod⟩ := next_word line.method_plain line.method_ne
    (show 32 ∈ wordDelim by decide) zero_notMem_wordDelim
    (line.uri ++ 32 :: (line.prot ++ 13 :: 10 :: rest))
  obtain ⟨htoken, hnext⟩ := next_word huri line.uri_ne (show 32 ∈ uriDelim by decide)
    zero_notMem_uriDelim (line.prot ++ 13 :: 10 :: rest)
  obtain ⟨-, hprot⟩ := next_word line.prot_plain line.prot_ne
    (show 13 ∈ wordDelim by decide) zero_notMem_wordDelim (10 :: rest)
  rw [headersText, RequestLine.append, hmethod, hnext, hprot]
  exact ⟨htoken, rfl⟩

/-- A header is bare if nothing stands behind its colon. -/
def HeaderLine.Bare (l : HeaderLine) : Prop := l.valuePart = []

instance (l : HeaderLine) : Decidable l.Bare := inferInstanceAs (Decidable (_ = _))

/-- The headers up to the first zero byte, which can stand in a name only. -/
def visible (headers : List HeaderLine) : List HeaderLine := headers.takeWhile (0 ∉ ·.name)

/-- The part before the zero byte of the first name that has one. -/
def leftover (headers : List HeaderLine) : List UInt8 :=
  ((headers.find? (0 ∈ ·.name)).elim [] HeaderLine.name).takeWhile (· ≠ 0)

/-- The headers that are left when each line right behind a bare one is taken for its value, each
with what follows its colon: the value, or for a bare one the next line. What follows the last
one are the bytes of a name that is cut off. -/
def fields (cut : List UInt8) : List HeaderLine → List (HeaderLine × List UInt8)
  | [] => []
  | [l] => [(l, if l.Bare then cut else l.value)]
  | l :: l' :: ls =>
    if l.Bare then (l, l'.text) :: fields cut ls else (l, l.value) :: fields cut (l' :: ls)

/-- Every header that is left has something behind its colon or a line behind it, and a name that
is cut off is taken for the value of a bare header. -/
def Complete (cut : List UInt8) : List HeaderLine → Prop
  | [] => cut = []
  | [l] => l.Bare ↔ cut ≠ []
  | l :: l' :: ls => if l.Bare then Complete cut ls else Complete cut (l' :: ls)

instance decidableComplete (cut : List UInt8) : (ls : List HeaderLine) → Decidable (Complete cut ls)
  | [] => inferInstanceAs (Decidable (cut = []))
  | [l] => inferInstanceAs (Decidable (l.Bare ↔ cut ≠ []))
  | l :: l' :: ls =>
    have := decidableComplete cut ls
    have := decidableComplete cut (l' :: ls)
    inferInstanceAs (Decidable (if l.Bare then Complete cut ls else Complete cut (l' :: ls)))

/-- What follows the headers that are visible: the blank line and the end of the request, or a
name with a zero byte. -/
inductive IsEnd : List UInt8 → List UInt8 → Prop
  | blankLine (rest : List UInt8) : IsEnd [] (13 :: 10 :: 0 :: rest)
  | cut {name junk : List UInt8} (hname : ∀ b ∈ name, b ≠ 0 ∧ b ∉ nameDelim)
      (hjunk : 2 < junk.length) : IsEnd name (name ++ 0 :: junk)

/-- An entry of the table points to the name of a header and to a text. -/
def Records (block : List UInt8) (entry : Header) (field : HeaderLine × List UInt8) : Prop :=
  stringAt block entry.name = some field.1.name ∧ stringAt block entry.value = some field.2

/-- A run of the loop that writes entries for the fields and leaves no token behind. -/
def ReadsAs (run : Option (Scan × List Header)) (front : List UInt8) (reqhdr : List Header) (h : ℕ)
    (fs : List (HeaderLine × List UInt8)) : Prop :=
  ∃ front' text' entries, run = some (.between front' text',
      reqhdr.take h ++ entries ++ reqhdr.drop (h + entries.length)) ∧
    0 ∈ text' ∧ token lineDelim text' = [] ∧ front <+: front' ++ text' ∧
    List.Forall₂ (Records (front' ++ text')) entries fs

section Entries

variable {run : Option (Scan × List Header)} {reqhdr : List Header} {h : ℕ} {entry : Header}
  {field : HeaderLine × List UInt8} {fs : List (HeaderLine × List UInt8)}
  {front' text' : List UInt8}

/-- A run that writes nothing. -/
theorem readsAs_nil (hzero : 0 ∈ text') (hnone : token lineDelim text' = [])
    (hfront : front <+: front' ++ text') (reqhdr : List Header) (h : ℕ) :
    ReadsAs (some (.between front' text', reqhdr)) front reqhdr h [] :=
  ⟨front', text', [], by simp, hzero, hnone, hfront, .nil⟩

/-- A run that writes an entry first. -/
theorem ReadsAs.cons (hrun : ReadsAs run front' (reqhdr.set h entry) (h + 1) fs)
    (hh : h < reqhdr.length) (hfront : front <+: front')
    (hrecords : ∀ block, front' <+: block → Records block entry field) :
    ReadsAs run front reqhdr h (field :: fs) := by
  obtain ⟨front₁, text₁, entries, hrun, hzero, hnone, hfront₁, hentries⟩ := hrun
  refine ⟨front₁, text₁, entry :: entries, ?_, hzero, hnone, hfront.trans hfront₁,
    .cons (hrecords _ hfront₁) hentries⟩
  have htake : (reqhdr.set h entry).take (h + 1) = reqhdr.take h ++ [entry] := by
    rw [List.take_set, List.take_add_one, List.getElem?_eq_getElem hh, Option.toList_some,
      List.set_append_right _ _ (List.length_take_le _ _), List.length_take_of_le hh.le,
      Nat.sub_self, List.set_cons_zero]
  have hdrop : (reqhdr.set h entry).drop (h + 1 + entries.length) =
      reqhdr.drop (h + (entry :: entries).length) := by
    rw [List.drop_set, if_pos (by omega), List.length_cons]
    congr 1
    omega
  rw [hrun, htake, hdrop, List.append_assoc (List.take h reqhdr), List.singleton_append]

/-- A run that writes one entry. -/
theorem readsAs_singleton (hh : h < reqhdr.length) (hzero : 0 ∈ text')
    (hnone : token lineDelim text' = []) (hfront : front <+: front' ++ text')
    (hrecords : Records (front' ++ text') entry field) :
    ReadsAs (some (.between front' text', reqhdr.set h entry)) front reqhdr h [field] := by
  refine ⟨front', text', [entry], ?_, hzero, hnone, hfront, .cons hrecords .nil⟩
  rw [List.set_eq_take_append_cons_drop, if_pos hh, List.append_assoc, List.singleton_append,
    List.length_singleton]

end Entries

/-- The name and the value of an entry are strings if the name is ended by a delimiter. -/
theorem records_headerAt {block : List UInt8} {l : HeaderLine} {value : List UInt8}
    (rest : List UInt8)
    (hblock : block = front ++ consumed nameDelim text ++ separators lineDelim (valueText text) ++
      (token lineDelim (valueText text) ++ 0 :: rest))
    (hconsumed : consumed nameDelim text = separators nameDelim text ++ l.name ++ [0])
    (hname : 0 ∉ l.name)
    (hvalue : (token lineDelim (valueText text)).drop
      (leadingSpaces (token lineDelim (valueText text))) = value) :
    Records block (headerAt front text) (l, value) := by
  constructor
  · rw [headerAt, stringAt, hblock, hconsumed]
    simp only [List.append_assoc]
    rw [← List.append_assoc front, List.drop_left, List.singleton_append, cstr_append hname]
  · have hle : leadingSpaces (token lineDelim (valueText text)) ≤
        (token lineDelim (valueText text)).length := (List.takeWhile_sublist _).length_le
    rw [headerAt, stringAt, hblock, ← List.drop_drop, List.drop_left,
      List.drop_append_of_le_length hle, hvalue]
    refine cstr_append (fun h => ?_) _
    rw [← hvalue] at h
    exact (mem_token (List.mem_of_mem_drop h)).1 rfl

section Lines

variable {l : HeaderLine} {more : List UInt8}

/-- The bytes of a name that is visible. -/
theorem HeaderLine.plain (l : HeaderLine) (hname : 0 ∉ l.name) :
    ∀ b ∈ l.name, b ≠ 0 ∧ b ∉ nameDelim := fun b hb =>
  ⟨fun h => hname (h ▸ hb), l.name_plain b hb⟩

/-- How a header line is read up to its colon. -/
theorem HeaderLine.parts (l : HeaderLine) (hname : 0 ∉ l.name) (more : List UInt8) :
    separators nameDelim (10 :: l.append more) = [10] ∧
      token nameDelim (10 :: l.append more) = l.name ∧
      consumed nameDelim (10 :: l.append more) = [10] ++ l.name ++ [0] ∧
      valueText (10 :: l.append more) = l.valuePart ++ 13 :: 10 :: more := by
  have hsep : ∀ b ∈ ([10] : List UInt8), b ∈ nameDelim := by simp [nameDelim]
  have hplain := l.plain hname
  have hcolon : (58 : UInt8) ∈ nameDelim := by decide
  have htext : 10 :: l.append more =
      [10] ++ l.name ++ 58 :: (l.valuePart ++ 13 :: 10 :: more) := rfl
  rw [htext]
  obtain ⟨hseparators, htoken, -⟩ := parts_eq hsep hplain (.inr hcolon) (.inl l.name_ne)
    zero_notMem_nameDelim (l.valuePart ++ 13 :: 10 :: more)
  obtain ⟨hnext, hconsumed⟩ := next_eq hsep hplain l.name_ne hcolon zero_notMem_nameDelim
    (l.valuePart ++ 13 :: 10 :: more)
  exact ⟨hseparators, htoken, hconsumed, hnext⟩

/-- What stands behind a colon has no line end. -/
theorem HeaderLine.valuePart_plain (l : HeaderLine) : ∀ b ∈ l.valuePart, b ≠ 0 ∧ b ∉ lineDelim := by
  intro b hb
  rcases List.mem_append.mp hb with h | h
  · rw [(List.mem_replicate.mp h).2]
    decide
  · exact l.value_plain b h

/-- A value that does not begin with a blank. -/
theorem leadingSpaces_eq_zero {value : List UInt8} (hhead : value.head? ≠ some 32) :
    leadingSpaces value = 0 := by
  cases value with
  | nil => rfl
  | cons b value =>
    have hb : ¬decide (b = 32) = true := by simpa using hhead
    rw [leadingSpaces, List.takeWhile_cons, if_neg hb, List.length_nil]

/-- The value without the blanks before it. -/
theorem HeaderLine.drop_leadingSpaces (l : HeaderLine) :
    l.valuePart.drop (leadingSpaces l.valuePart) = l.value := by
  have hblanks : ∀ b ∈ List.replicate l.spaces (32 : UInt8), decide (b = 32) = true := fun b hb =>
    decide_eq_true (List.mem_replicate.mp hb).2
  have hspaces : leadingSpaces l.valuePart = l.spaces := by
    rw [leadingSpaces, valuePart, List.takeWhile_append_of_pos hblanks, List.length_append,
      List.length_replicate, ← leadingSpaces, leadingSpaces_eq_zero l.value_head, Nat.add_zero]
  rw [hspaces, valuePart, List.drop_left' List.length_replicate]

/-- The bytes of a name have no line end, and do not begin with a blank. -/
theorem name_line {name : List UInt8} (hname : ∀ b ∈ name, b ≠ 0 ∧ b ∉ nameDelim) :
    (∀ b ∈ name, b ≠ 0 ∧ b ∉ lineDelim) ∧ ∀ c ∈ nameDelim, name.head? ≠ some c := by
  refine ⟨fun b hb => ⟨(hname b hb).1, fun h => ?_⟩, fun c hc h => ?_⟩
  · exact (hname b hb).2 (List.mem_append_left [58, 32, 9] h)
  · exact (hname c (List.mem_of_mem_head? h)).2 hc

/-- The text of a header line has no line end. -/
theorem HeaderLine.text_plain (l : HeaderLine) (hname : 0 ∉ l.name) :
    ∀ b ∈ l.text, b ≠ 0 ∧ b ∉ lineDelim := by
  intro b hb
  rcases List.mem_append.mp hb with h | h
  · exact (name_line (l.plain hname)).1 b h
  · rcases List.mem_cons.mp h with rfl | h
    · decide
    · exact l.valuePart_plain b h

/-- A header line begins with a byte of its name. -/
theorem HeaderLine.head_append (l : HeaderLine) (rest : List UInt8) :
    ∃ b more, l.name ++ rest = b :: more ∧ b ∉ nameDelim := by
  obtain ⟨b, name, hname⟩ := List.exists_cons_of_ne_nil l.name_ne
  refine ⟨b, name ++ rest, by rw [hname, List.cons_append], l.name_plain b ?_⟩
  rw [hname]
  exact List.mem_cons_self

/-- What is before the next header once a header and its value are read. -/
def fieldFront (front : List UInt8) (l : HeaderLine) (skipped value : List UInt8) : List UInt8 :=
  front ++ ([10] ++ l.name ++ [0]) ++ (skipped ++ value ++ [0])

section Field

variable {skipped value rest : List UInt8} {reqhdr : List Header} {h left : ℕ}
  (hname : 0 ∉ l.name) (hskipped : ∀ b ∈ skipped, b ∈ lineDelim)
  (hplain : ∀ b ∈ value, b ≠ 0 ∧ b ∉ lineDelim) (hne : value ≠ [])
  (hvalue : l.valuePart ++ 13 :: 10 :: more = skipped ++ value ++ 13 :: 10 :: rest)
include hname hskipped hplain hne hvalue

/-- How the value is read behind the colon of a header. -/
theorem HeaderLine.value_parts : separators lineDelim (valueText (10 :: l.append more)) = skipped ∧
      token lineDelim (valueText (10 :: l.append more)) = value ∧
      behind lineDelim (valueText (10 :: l.append more)) = 13 :: 10 :: rest ∧
      consumed lineDelim (valueText (10 :: l.append more)) = skipped ++ value ++ [0] ∧
      next lineDelim (valueText (10 :: l.append more)) = 10 :: rest := by
  obtain ⟨-, -, -, hvalueText⟩ := l.parts hname more
  have hreturn : (13 : UInt8) ∈ lineDelim := by decide
  obtain ⟨hseparators, htoken, hbehind⟩ := parts_eq hskipped hplain (.inr hreturn) (.inl hne)
    zero_notMem_lineDelim (10 :: rest)
  obtain ⟨hnext, hconsumed⟩ :=
    next_eq hskipped hplain hne hreturn zero_notMem_lineDelim (10 :: rest)
  rw [hvalueText, hvalue]
  exact ⟨hseparators, htoken, hbehind, hconsumed, hnext⟩

/-- The loop reads a header and its value, and goes on with what follows the end of the line. -/
theorem readHeaders_field (hzero : 0 ∈ more) (hh : h < reqhdr.length) :
    readHeaders (left + 1) h (.between front (10 :: l.append more)) reqhdr =
      let scan := Scan.between (fieldFront front l skipped value) (10 :: rest)
      let reqhdr := reqhdr.set h (headerAt front (10 :: l.append more))
      rest[0]?.bind fun c₁ =>
        if c₁ = 13 then
          rest[1]?.bind fun c₂ =>
            if c₂ = 10 then some (scan, reqhdr) else readHeaders left (h + 1) scan reqhdr
        else readHeaders left (h + 1) scan reqhdr := by
  have htext : 0 ∈ 10 :: l.append more := by
    simp [hzero]
  obtain ⟨-, htoken, hconsumed, -⟩ := l.parts hname more
  obtain ⟨-, hvalueToken, hbehind, hvalueConsumed, hnext⟩ :=
    HeaderLine.value_parts hname hskipped hplain hne hvalue
  rw [readHeaders_succ htext hh, if_neg (htoken ▸ l.name_ne), if_neg (hvalueToken ▸ hne), hbehind,
    afterHeader, hconsumed, hvalueConsumed, hnext, ← fieldFront]
  rfl

/-- The entry of a header stays what it is whatever is read later. -/
theorem records_field {block : List UInt8} (hblock : fieldFront front l skipped value <+: block) :
    Records block (headerAt front (10 :: l.append more))
      (l, value.drop (leadingSpaces value)) := by
  obtain ⟨w, hw⟩ := hblock
  obtain ⟨hseparators, -, hconsumed, -⟩ := l.parts hname more
  obtain ⟨hvalueSeparators, hvalueToken, -⟩ :=
    HeaderLine.value_parts hname hskipped hplain hne hvalue
  refine records_headerAt w ?_ ?_ hname ?_
  · rw [hconsumed, hvalueSeparators, hvalueToken, ← hw, fieldFront]
    simp
  · rw [hconsumed, hseparators]
  · rw [hvalueToken]

end Field

end Lines

section Ends

variable {cut tail junk : List UInt8} {reqhdr : List Header} {h left : ℕ} {l : HeaderLine}
  {ends : List UInt8}

/-- At the end of the string the loop ends. -/
theorem readHeaders_zero (hsize : h + left ≤ reqhdr.length) :
    readHeaders left h (.between front (0 :: junk)) reqhdr =
      some (.between front (0 :: junk), reqhdr) := by
  cases left with
  | zero => rfl
  | succ left =>
    obtain ⟨htoken, hconsumed, hnext⟩ := parts_end zero_notMem_nameDelim junk
    rw [readHeaders_succ List.mem_cons_self (by omega), if_pos htoken, hconsumed, valueText, hnext,
      List.append_nil]

/-- At line ends before the end of the string the loop ends. -/
theorem readsAs_lineEnds (hends : ∀ b ∈ ends, b ∈ lineDelim) (hsize : h + left ≤ reqhdr.length)
    (front more : List UInt8) :
    ReadsAs (readHeaders left h (.between front (ends ++ 0 :: more)) reqhdr) front reqhdr h [] := by
  have hzero : 0 ∈ ends ++ 0 :: more := by simp
  cases left with
  | zero =>
    exact readsAs_nil hzero (no_token hends zero_notMem_lineDelim more).1
      (List.prefix_append _ _) reqhdr h
  | succ left =>
    have hnames : ∀ b ∈ ends, b ∈ nameDelim := fun b hb =>
      List.mem_append_left [58, 32, 9] (hends b hb)
    obtain ⟨htoken, hnext⟩ := no_token hnames zero_notMem_nameDelim more
    rw [readHeaders_succ hzero (by omega), if_pos htoken, valueText, hnext]
    refine readsAs_nil List.mem_cons_self (parts_end zero_notMem_lineDelim more).1 ?_ reqhdr h
    rw [List.append_assoc]
    exact List.prefix_append _ _

/-- Behind the last header the loop ends, or finds a name without a value. -/
theorem readHeaders_end (hend : IsEnd cut tail) (hleft : cut ≠ [] → 0 < left)
    (hsize : h + left ≤ reqhdr.length) (front : List UInt8) :
    (cut ≠ [] ∧ readHeaders left h (.between front (10 :: tail)) reqhdr = none) ∨
    (cut = [] ∧
      ReadsAs (readHeaders left h (.between front (10 :: tail)) reqhdr) front reqhdr h []) := by
  cases hend with
  | blankLine rest =>
    have hends : ∀ b ∈ ([10, 13, 10] : List UInt8), b ∈ lineDelim := by simp [lineDelim]
    exact .inr ⟨rfl, readsAs_lineEnds hends hsize front rest⟩
  | @cut _ junk hname hjunk =>
    have hsep : ∀ b ∈ ([10] : List UInt8), b ∈ lineDelim := by simp [lineDelim]
    by_cases hne : cut = []
    · subst hne
      exact .inr ⟨rfl, readsAs_lineEnds hsep hsize front junk⟩
    · obtain ⟨left, rfl⟩ := Nat.exists_eq_add_one.mpr (hleft hne)
      have hnames : ∀ b ∈ ([10] : List UInt8), b ∈ nameDelim := by simp [nameDelim]
      obtain ⟨htoken, -, hnext⟩ := next_end hnames hname zero_notMem_nameDelim junk
      refine .inl ⟨hne, ?_⟩
      rw [show 10 :: (cut ++ 0 :: junk) = [10] ++ cut ++ 0 :: junk from rfl,
        readHeaders_succ (by simp) (by omega), htoken, if_neg hne, valueText, hnext,
        if_pos (parts_end zero_notMem_lineDelim junk).1]

/-- A bare header before the end of the string has no value. -/
theorem readHeaders_bare_none (hends : ∀ b ∈ ends, b ∈ lineDelim) (hname : 0 ∉ l.name)
    (hbare : l.Bare) (hh : h < reqhdr.length) (front more : List UInt8) :
    readHeaders (left + 1) h (.between front (10 :: l.append (ends ++ 0 :: more))) reqhdr =
      none := by
  obtain ⟨-, htoken, -, hvalueText⟩ := l.parts hname (ends ++ 0 :: more)
  have hlineEnds : ∀ b ∈ 13 :: 10 :: ends, b ∈ lineDelim := by
    simpa [lineDelim] using hends
  have hnone : token lineDelim (13 :: 10 :: (ends ++ 0 :: more)) = [] :=
    (no_token hlineEnds zero_notMem_lineDelim more).1
  rw [readHeaders_succ (by simp) hh, if_neg (htoken ▸ l.name_ne), hvalueText,
    hbare, List.nil_append, if_pos hnone]

section Cut

variable (hcut : ∀ b ∈ cut, b ≠ 0 ∧ b ∉ nameDelim) (hne : cut ≠ []) (hname : 0 ∉ l.name)
  (hbare : l.Bare)
include hcut hne hname hbare

/-- How the value is read behind the colon of a bare header before a name that is cut off. -/
theorem HeaderLine.cut_parts (junk : List UInt8) :
    separators lineDelim (valueText (10 :: l.append (cut ++ 0 :: junk))) = [13, 10] ∧
      token lineDelim (valueText (10 :: l.append (cut ++ 0 :: junk))) = cut ∧
      behind lineDelim (valueText (10 :: l.append (cut ++ 0 :: junk))) = 0 :: junk ∧
      consumed lineDelim (valueText (10 :: l.append (cut ++ 0 :: junk))) = [13, 10] ++ cut ∧
      next lineDelim (valueText (10 :: l.append (cut ++ 0 :: junk))) = 0 :: junk := by
  obtain ⟨-, -, -, hvalueText⟩ := l.parts hname (cut ++ 0 :: junk)
  rw [hbare] at hvalueText
  have hvalue : valueText (10 :: l.append (cut ++ 0 :: junk)) = [13, 10] ++ cut ++ 0 :: junk :=
    hvalueText
  have hends : ∀ b ∈ ([13, 10] : List UInt8), b ∈ lineDelim := by simp [lineDelim]
  obtain ⟨hplain, -⟩ := name_line hcut
  obtain ⟨hseparators, htoken, hbehind⟩ := parts_eq hends hplain (.inl rfl) (.inl hne)
    zero_notMem_lineDelim junk
  obtain ⟨-, hconsumed, hnext⟩ := next_end hends hplain zero_notMem_lineDelim junk
  rw [hvalue]
  exact ⟨hseparators, htoken, hbehind, hconsumed, hnext⟩

/-- The loop reads a bare header with such a value, and ends whatever stands behind the zero
byte. -/
theorem readHeaders_bare_cut (hjunk : 2 < junk.length) (hsize : h + left + 1 ≤ reqhdr.length) :
    readHeaders (left + 1) h (.between front (10 :: l.append (cut ++ 0 :: junk))) reqhdr =
      some (.between (front ++ ([10] ++ l.name ++ [0]) ++ ([13, 10] ++ cut)) (0 :: junk),
        reqhdr.set h (headerAt front (10 :: l.append (cut ++ 0 :: junk)))) := by
  obtain ⟨-, htoken, hconsumed, -⟩ := l.parts hname (cut ++ 0 :: junk)
  obtain ⟨-, hvalueToken, hbehind, hvalueConsumed, hnext⟩ :=
    HeaderLine.cut_parts hcut hne hname hbare junk
  obtain ⟨c₁, hc₁⟩ : ∃ c₁, junk[1]? = some c₁ := ⟨_, List.getElem?_eq_getElem (by omega)⟩
  obtain ⟨c₂, hc₂⟩ : ∃ c₂, junk[2]? = some c₂ := ⟨_, List.getElem?_eq_getElem (by omega)⟩
  have hrest : h + 1 + left ≤
      (reqhdr.set h (headerAt front (10 :: l.append (cut ++ 0 :: junk)))).length := by
    rw [List.length_set]
    omega
  rw [readHeaders_succ (by simp) (by omega), if_neg (htoken ▸ l.name_ne),
    hvalueToken, if_neg hne, hbehind, afterHeader, hconsumed, hvalueConsumed, hnext]
  simp only [List.getElem?_cons_succ, hc₁, hc₂, Option.bind_some, readHeaders_zero hrest, ite_self]

/-- Its entry points to the name that is cut off. -/
theorem records_bare_cut (front junk : List UInt8) :
    Records (front ++ ([10] ++ l.name ++ [0]) ++ ([13, 10] ++ cut) ++ 0 :: junk)
      (headerAt front (10 :: l.append (cut ++ 0 :: junk))) (l, cut) := by
  obtain ⟨hseparators, -, hconsumed, -⟩ := l.parts hname (cut ++ 0 :: junk)
  obtain ⟨hvalueSeparators, hvalueToken, -⟩ := HeaderLine.cut_parts hcut hne hname hbare junk
  obtain ⟨-, hhead⟩ := name_line hcut
  refine records_headerAt junk ?_ ?_ hname ?_
  · rw [hconsumed, hvalueSeparators, hvalueToken]
    simp
  · rw [hconsumed, hseparators]
  · rw [hvalueToken, leadingSpaces_eq_zero (hhead 32 (by decide)), List.drop_zero]

/-- A bare header before a name that is cut off takes that for its value. -/
theorem readsAs_bare_cut (hjunk : 2 < junk.length) (hsize : h + left + 1 ≤ reqhdr.length)
    (front : List UInt8) :
    ReadsAs (readHeaders (left + 1) h (.between front (10 :: l.append (cut ++ 0 :: junk))) reqhdr)
      front reqhdr h [(l, cut)] := by
  rw [readHeaders_bare_cut hcut hne hname hbare hjunk hsize]
  refine readsAs_singleton (by omega) List.mem_cons_self
    (parts_end zero_notMem_lineDelim junk).1 ?_
    (records_bare_cut hcut hne hname hbare front junk)
  rw [List.append_assoc, List.append_assoc]
  exact List.prefix_append _ _

end Cut

/-- A bare header before the end: the name that is cut off is its value, or there is none. -/
theorem readHeaders_bare_end (hend : IsEnd cut tail) (hname : 0 ∉ l.name) (hbare : l.Bare)
    (hsize : h + left + 1 ≤ reqhdr.length) (front : List UInt8) :
    (cut = [] ∧ readHeaders (left + 1) h (.between front (10 :: l.append tail)) reqhdr = none) ∨
    (cut ≠ [] ∧ ReadsAs (readHeaders (left + 1) h (.between front (10 :: l.append tail)) reqhdr)
      front reqhdr h [(l, cut)]) := by
  cases hend with
  | blankLine rest =>
    have hends : ∀ b ∈ ([13, 10] : List UInt8), b ∈ lineDelim := by simp [lineDelim]
    exact .inl ⟨rfl, readHeaders_bare_none hends hname hbare (by omega) front rest⟩
  | @cut _ junk hcut hjunk =>
    by_cases hne : cut = []
    · subst hne
      have hends : ∀ b ∈ ([] : List UInt8), b ∈ lineDelim := by simp
      exact .inl ⟨rfl, readHeaders_bare_none hends hname hbare (by omega) front junk⟩
    · exact .inr ⟨hne, readsAs_bare_cut hcut hne hname hbare hjunk hsize front⟩

end Ends

section Run

variable {cut tail : List UInt8} {reqhdr : List Header} {h left : ℕ} {l : HeaderLine}
  {ls : List HeaderLine}

/-- The loop over header lines faults, or reads them as their fields. -/
def ReadsLines (cut tail : List UInt8) (ls : List HeaderLine) (left h : ℕ) (front : List UInt8)
    (reqhdr : List Header) : Prop :=
  let run := readHeaders left h (.between front (10 :: appendHeaders ls tail)) reqhdr
  (¬Complete cut ls ∧ run = none) ∨ (Complete cut ls ∧ ReadsAs run front reqhdr h (fields cut ls))

/-- What follows a header is the blank line, or does not begin with a carriage return. -/
theorem IsEnd.appendHeaders_cases (hend : IsEnd cut tail) (ls : List HeaderLine) :
    (ls = [] ∧ cut = [] ∧ ∃ rest, tail = 13 :: 10 :: 0 :: rest) ∨
      ∃ b more, appendHeaders ls tail = b :: more ∧ b ≠ 13 := by
  have hreturn : (13 : UInt8) ∈ nameDelim := by decide
  cases ls with
  | nil =>
    cases hend with
    | blankLine rest => exact .inl ⟨rfl, rfl, rest, rfl⟩
    | @cut _ junk hname hjunk =>
      refine .inr ?_
      cases cut with
      | nil => exact ⟨0, junk, rfl, by decide⟩
      | cons b cut =>
        exact ⟨b, cut ++ 0 :: junk, rfl, fun hb => (hname b List.mem_cons_self).2 (hb ▸ hreturn)⟩
  | cons l ls =>
    obtain ⟨b, more, hmore, hb⟩ :=
      l.head_append (58 :: (l.valuePart ++ 13 :: 10 :: appendHeaders ls tail))
    exact .inr ⟨b, more, hmore, fun h => hb (h ▸ hreturn)⟩

/-- The string ends behind the headers. -/
theorem IsEnd.zero_mem_appendHeaders (hend : IsEnd cut tail) (ls : List HeaderLine) :
    0 ∈ appendHeaders ls tail := by
  induction ls with
  | nil => cases hend <;> simp [appendHeaders]
  | cons l ls ih =>
    rw [appendHeaders_cons]
    simp [ih]

/-- One header and its value, followed by others. -/
theorem ReadsLines.field {skipped value : List UInt8} (hend : IsEnd cut tail) (hname : 0 ∉ l.name)
    (hskipped : ∀ b ∈ skipped, b ∈ lineDelim) (hplain : ∀ b ∈ value, b ≠ 0 ∧ b ∉ lineDelim)
    (hne : value ≠ []) (hmore : 0 ∈ more)
    (hvalue : l.valuePart ++ 13 :: 10 :: more =
      skipped ++ value ++ 13 :: 10 :: appendHeaders ls tail)
    (hh : h < reqhdr.length)
    (hrest : ReadsLines cut tail ls left (h + 1) (fieldFront front l skipped value)
      (reqhdr.set h (headerAt front (10 :: l.append more)))) :
    let run := readHeaders (left + 1) h (.between front (10 :: l.append more)) reqhdr
    (¬Complete cut ls ∧ run = none) ∨ (Complete cut ls ∧
        ReadsAs run front reqhdr h ((l, value.drop (leadingSpaces value)) :: fields cut ls)) := by
  intro run
  have hrecords : ∀ block, fieldFront front l skipped value <+: block →
      Records block (headerAt front (10 :: l.append more)) (l, value.drop (leadingSpaces value)) :=
    fun block hblock => records_field hname hskipped hplain hne hvalue hblock
  have hfront : front <+: fieldFront front l skipped value := by
    rw [fieldFront, List.append_assoc]
    exact List.prefix_append _ _
  have hrun : run = _ := readHeaders_field hname hskipped hplain hne hvalue hmore hh
  rcases hend.appendHeaders_cases ls with ⟨rfl, rfl, rest, rfl⟩ | ⟨b, rest, hb, hreturn⟩
  · -- The blank line ends the loop.
    have hstop : run = some (.between (fieldFront front l skipped value)
        (10 :: 13 :: 10 :: 0 :: rest), reqhdr.set h (headerAt front (10 :: l.append more))) := hrun
    have hends : ∀ b ∈ ([10, 13, 10] : List UInt8), b ∈ lineDelim := by simp [lineDelim]
    rw [hstop]
    exact .inr ⟨rfl, readsAs_singleton hh (by simp) (no_token hends zero_notMem_lineDelim rest).1
      (hfront.trans (List.prefix_append _ _)) (hrecords _ (List.prefix_append _ _))⟩
  · have hcontinue : run = readHeaders left (h + 1)
        (.between (fieldFront front l skipped value) (10 :: appendHeaders ls tail))
        (reqhdr.set h (headerAt front (10 :: l.append more))) := by
      rw [hrun, hb]
      simp [hreturn]
    rw [hcontinue]
    rcases hrest with ⟨hfault, hnone⟩ | ⟨hcomplete, hreads⟩
    · exact .inl ⟨hfault, hnone⟩
    · exact .inr ⟨hcomplete, hreads.cons hh hfront hrecords⟩

/-- No header lines. -/
theorem readsLines_nil (hend : IsEnd cut tail) (hleft : cut ≠ [] → 0 < left)
    (hsize : h + left ≤ reqhdr.length) (front : List UInt8) :
    ReadsLines cut tail [] left h front reqhdr := by
  rcases readHeaders_end hend hleft hsize front with ⟨hne, hnone⟩ | ⟨heq, hreads⟩
  · exact .inl ⟨hne, hnone⟩
  · exact .inr ⟨heq, hreads⟩

/-- A header that is not bare is a field of its own. -/
theorem complete_cons_iff (hbare : ¬l.Bare) : Complete cut (l :: ls) ↔ Complete cut ls := by
  cases ls with
  | nil =>
    rw [Complete, Complete, iff_false_left hbare, not_not]
  | cons l' ls => rw [Complete, if_neg hbare]

/-- The field of a header that is not bare. -/
theorem fields_cons (hbare : ¬l.Bare) : fields cut (l :: ls) = (l, l.value) :: fields cut ls := by
  cases ls with
  | nil => simp only [fields, if_neg hbare]
  | cons l' ls => rw [fields, if_neg hbare]

/-- A header that is not bare, followed by others. -/
theorem ReadsLines.cons (hend : IsEnd cut tail) (hname : 0 ∉ l.name) (hbare : ¬l.Bare)
    (hh : h < reqhdr.length)
    (hrest : ∀ front reqhdr', reqhdr'.length = reqhdr.length →
      ReadsLines cut tail ls left (h + 1) front reqhdr') :
    ReadsLines cut tail (l :: ls) (left + 1) h front reqhdr := by
  have hskipped : ∀ b ∈ ([] : List UInt8), b ∈ lineDelim := by simp
  have hfield := ReadsLines.field hend hname hskipped l.valuePart_plain hbare
    (hend.zero_mem_appendHeaders ls) rfl hh (hrest (fieldFront front l [] l.valuePart)
      (reqhdr.set h (headerAt front (10 :: l.append (appendHeaders ls tail)))) List.length_set)
  rw [l.drop_leadingSpaces] at hfield
  rw [ReadsLines, complete_cons_iff hbare, fields_cons hbare]
  exact hfield

/-- A bare header with the line behind it, followed by others. -/
theorem ReadsLines.cons_cons {l' : HeaderLine} (hend : IsEnd cut tail) (hname : 0 ∉ l.name)
    (hname' : 0 ∉ l'.name) (hbare : l.Bare) (hh : h < reqhdr.length)
    (hrest : ∀ front reqhdr', reqhdr'.length = reqhdr.length →
      ReadsLines cut tail ls left (h + 1) front reqhdr') :
    ReadsLines cut tail (l :: l' :: ls) (left + 1) h front reqhdr := by
  have hskipped : ∀ b ∈ ([13, 10] : List UInt8), b ∈ lineDelim := by simp [lineDelim]
  have htext : l'.text ≠ [] := by simp [HeaderLine.text]
  have hvalue : l.valuePart ++ 13 :: 10 :: appendHeaders (l' :: ls) tail =
      [13, 10] ++ l'.text ++ 13 :: 10 :: appendHeaders ls tail := by
    rw [hbare]
    simp [appendHeaders, HeaderLine.text]
  have hspaces : leadingSpaces l'.text = 0 := by
    obtain ⟨b, more, hmore, hb⟩ := l'.head_append (58 :: l'.valuePart)
    refine leadingSpaces_eq_zero fun h => hb ?_
    rw [HeaderLine.text, hmore] at h
    rw [Option.some_inj.mp h]
    decide
  have hfield := ReadsLines.field hend hname hskipped (l'.text_plain hname') htext
    (hend.zero_mem_appendHeaders (l' :: ls)) hvalue hh (hrest (fieldFront front l [13, 10] l'.text)
      (reqhdr.set h (headerAt front (10 :: l.append (appendHeaders (l' :: ls) tail))))
      List.length_set)
  rw [hspaces, List.drop_zero] at hfield
  rw [ReadsLines, Complete, if_pos hbare, fields, if_pos hbare]
  exact hfield

/-- The loop reads header lines as their fields. -/
theorem readsLines (hend : IsEnd cut tail) (ls : List HeaderLine)
    (hvisible : ∀ l ∈ ls, 0 ∉ l.name) (hleft : ls.length ≤ left)
    (hcut : cut ≠ [] → ls.length < left) (hsize : h + left ≤ reqhdr.length) (front : List UInt8) :
    ReadsLines cut tail ls left h front reqhdr := by
  induction ls using fields.induct generalizing left h front reqhdr with
  | case1 => exact readsLines_nil hend hcut hsize front
  | case2 l =>
    obtain ⟨left, rfl⟩ := Nat.exists_eq_add_one.mpr (Nat.lt_of_lt_of_le Nat.one_pos hleft)
    have hname : 0 ∉ l.name := hvisible l List.mem_cons_self
    by_cases hbare : l.Bare
    · rcases readHeaders_bare_end hend hname hbare hsize front with ⟨heq, hnone⟩ | ⟨hne, hreads⟩
      · exact .inl ⟨fun h => h.mp hbare heq, hnone⟩
      · refine .inr ⟨iff_of_true hbare hne, ?_⟩
        rw [fields, if_pos hbare]
        exact hreads
    · refine ReadsLines.cons hend hname hbare (by omega) fun front reqhdr' hlength => ?_
      exact readsLines_nil hend (fun hne => Nat.lt_of_succ_lt_succ (hcut hne)) (by omega) front
  | case3 l l' ls hbare ih =>
    rw [List.length_cons, List.length_cons] at hleft hcut
    obtain ⟨left, rfl⟩ : ∃ k, left = k + 1 := ⟨left - 1, by omega⟩
    refine ReadsLines.cons_cons hend (hvisible l (by simp)) (hvisible l' (by simp)) hbare
      (by omega) fun front reqhdr' hlength => ?_
    exact ih (fun k hk => hvisible k (by simp [hk])) (by omega)
      (fun hne => by have := hcut hne; omega) (by omega) front
  | case4 l l' ls hbare ih =>
    rw [List.length_cons] at hleft hcut
    obtain ⟨left, rfl⟩ : ∃ k, left = k + 1 := ⟨left - 1, by omega⟩
    refine ReadsLines.cons hend (hvisible l (by simp)) hbare (by omega)
      fun front reqhdr' hlength => ?_
    exact ih (fun k hk => hvisible k (List.mem_cons_of_mem l hk)) (by omega)
      (fun hne => by have := hcut hne; omega) (by omega) front

end Run

/-- A request with the zero byte behind it. -/
theorem requestText_append (line : RequestLine) (headers : List HeaderLine) (rest : List UInt8) :
    requestText line headers ++ 0 :: rest =
      line.append (appendHeaders headers (13 :: 10 :: 0 :: rest)) := by
  have hheaders : ∀ ls : List HeaderLine, appendHeaders ls [13, 10] ++ 0 :: rest =
      appendHeaders ls (13 :: 10 :: 0 :: rest) := by
    intro ls
    induction ls with
    | nil => rfl
    | cons l ls ih =>
      rw [appendHeaders_cons, appendHeaders_cons, ← ih]
      simp
  rw [requestText, ← hheaders]
  simp [RequestLine.append]

/-- A name with a zero byte. -/
theorem exists_cut {name : List UInt8} (hname : 0 ∈ name) :
    ∃ r, name = name.takeWhile (· ≠ 0) ++ 0 :: r := by
  induction name with
  | nil => simp at hname
  | cons b name ih =>
    by_cases hb : b = 0
    · exact ⟨name, by simp [hb]⟩
    · obtain ⟨r, hr⟩ := ih ((List.mem_cons.mp hname).resolve_left (Ne.symm hb))
      exact ⟨r, by simpa [hb] using hr⟩

/-- The headers of a request end with the blank line or with a name that is cut off. -/
theorem exists_isEnd (headers : List HeaderLine) (rest : List UInt8) :
    ∃ tail, appendHeaders headers (13 :: 10 :: 0 :: rest) = appendHeaders (visible headers) tail ∧
      IsEnd (leftover headers) tail := by
  induction headers with
  | nil => exact ⟨_, rfl, .blankLine rest⟩
  | cons l ls ih =>
    by_cases hname : 0 ∈ l.name
    · have hvisible : visible (l :: ls) = [] := by simp [visible, hname]
      have hleftover : leftover (l :: ls) = l.name.takeWhile (· ≠ 0) := by simp [leftover, hname]
      obtain ⟨r, hr⟩ := exists_cut hname
      have hplain : ∀ b ∈ l.name.takeWhile (· ≠ 0), b ≠ 0 ∧ b ∉ nameDelim := by
        intro b hb
        have hzero := List.mem_takeWhile_imp hb
        exact ⟨of_decide_eq_true hzero, l.name_plain b ((List.takeWhile_sublist _).subset hb)⟩
      rw [hvisible, hleftover]
      refine ⟨l.name.takeWhile (· ≠ 0) ++ 0 :: (r ++ 58 :: (l.valuePart ++ 13 :: 10 ::
        appendHeaders ls (13 :: 10 :: 0 :: rest))), ?_, .cut hplain ?_⟩
      · rw [appendHeaders_cons, HeaderLine.append]
        nth_rewrite 1 [hr]
        simp [appendHeaders]
      · simp only [List.length_append, List.length_cons]
        omega
    · obtain ⟨tail, htail, hend⟩ := ih
      have hvisible : visible (l :: ls) = l :: visible ls := by simp [visible, hname]
      have hleftover : leftover (l :: ls) = leftover ls := by simp [leftover, hname]
      refine ⟨tail, ?_, hleftover ▸ hend⟩
      rw [hvisible, appendHeaders_cons, appendHeaders_cons, htail]

/-- The visible names have no zero byte. -/
theorem zero_notMem_of_mem_visible {headers : List HeaderLine} {l : HeaderLine}
    (hl : l ∈ visible headers) : 0 ∉ l.name := by
  have h := List.mem_takeWhile_imp hl
  exact of_decide_eq_true h

/-- The visible headers are some of the headers, and not all if a name is cut off. -/
theorem length_visible (headers : List HeaderLine) : (visible headers).length ≤ headers.length ∧
      (leftover headers ≠ [] → (visible headers).length < headers.length) := by
  have hsublist : (visible headers).Sublist headers := List.takeWhile_sublist _
  refine ⟨hsublist.length_le, fun hne => ?_⟩
  refine Nat.lt_of_le_of_ne hsublist.length_le fun hlength => hne ?_
  have hall : visible headers = headers := hsublist.eq_of_length hlength
  have hnone : headers.find? (0 ∈ ·.name) = none := by
    rw [List.find?_eq_none]
    intro l hl
    rw [← hall] at hl
    simpa using zero_notMem_of_mem_visible hl
  rw [leftover, hnone]
  rfl

section Lookup

variable {block n : List UInt8} {cut : List UInt8} {ls : List HeaderLine}

/-- The fields are those of header lines. -/
theorem mem_of_mem_fields {f : HeaderLine × List UInt8} (hf : f ∈ fields cut ls) : f.1 ∈ ls := by
  induction ls using fields.induct with
  | case1 => simp [fields] at hf
  | case2 l => simp_all [fields]
  | case3 l l' ls hbare ih =>
    rw [fields, if_pos hbare] at hf
    rcases List.mem_cons.mp hf with rfl | hf
    · exact List.mem_cons_self
    · exact List.mem_cons_of_mem _ (List.mem_cons_of_mem _ (ih hf))
  | case4 l l' ls hbare ih =>
    rw [fields, if_neg hbare] at hf
    rcases List.mem_cons.mp hf with rfl | hf
    · exact List.mem_cons_self
    · exact List.mem_cons_of_mem _ (ih hf)

/-- There are no more fields than header lines. -/
theorem length_fields_le (cut : List UInt8) (ls : List HeaderLine) :
    (fields cut ls).length ≤ ls.length := by
  induction ls using fields.induct with
  | case1 => exact Nat.le_refl _
  | case2 l => exact Nat.le_refl _
  | case3 l l' ls hbare ih =>
    rw [fields, if_pos hbare, List.length_cons, List.length_cons, List.length_cons]
    omega
  | case4 l l' ls hbare ih =>
    rw [fields, if_neg hbare, List.length_cons, List.length_cons]
    omega

/-- There are fields if there are header lines. -/
theorem fields_eq_nil_iff : fields cut ls = [] ↔ ls = [] := by
  rcases ls with _ | ⟨l, _ | ⟨l', ls⟩⟩
  · simp [fields]
  · simp [fields]
  · rw [fields]
    split_ifs <;> simp

/-- `request_header` returns the value of the first entry with the name, or looks at the rest of
the table. -/
theorem requestHeader_entries {entries : List Header} {fs : List (HeaderLine × List UInt8)}
    (hentries : List.Forall₂ (Records block) entries fs) (n : List UInt8) (table : List Header) :
    (∃ f p, fs.find? (·.1.name = n) = some f ∧
      requestHeader block n (entries ++ table) = some p ∧ stringAt block p = some f.2) ∨
    (fs.find? (·.1.name = n) = none ∧
      requestHeader block n (entries ++ table) = requestHeader block n table) := by
  induction hentries with
  | nil => exact .inr ⟨rfl, rfl⟩
  | @cons entry f entries fs hentry hentries ih =>
    have hname : entry.name ≠ .null := by
      intro h
      have hstring := hentry.1
      rw [h] at hstring
      exact absurd hstring (by simp [stringAt])
    rw [List.cons_append, requestHeader, if_neg hname, hentry.1, Option.bind_some]
    by_cases hn : f.1.name = n
    · exact .inl ⟨f, entry.value, by simp [hn], if_pos hn, hentry.2⟩
    · rw [List.find?_cons_of_neg (by simpa using hn), if_neg hn]
      exact ih

/-- The entries of the table that no header was written to. -/
theorem requestHeader_initial (block n : List UInt8) {m : ℕ} (hm : m ≤ 16) :
    requestHeader block n (initialReqhdr.drop m) =
      some (if m = 0 ∧ n = [] then .literal else .null) := by
  cases m with
  | zero =>
    by_cases hn : n = []
    · simp [initialReqhdr, requestHeader, stringAt, hn]
    · simp [initialReqhdr, requestHeader, stringAt, hn, Ne.symm hn, List.replicate]
  | succ m =>
    obtain ⟨k, hk⟩ : ∃ k, 16 - m = k + 1 := ⟨15 - m, by omega⟩
    rw [initialReqhdr, List.drop_succ_cons, List.drop_replicate, hk, List.replicate_succ]
    simp [requestHeader]

end Lookup

/-- What a caller of `request_header` is told: the value of a header, or that there is none. -/
def Returns (block : List UInt8) (p : Pointer) : Option HeaderLine → Prop
  | none => p = .null
  | some l => stringAt block p = some l.value

/-- The headers for which a lookup tells what was sent. The parser comes to the end of the
headers. The first header with the name that is not taken for the value of a bare one has, behind
its colon, the text of the first header with the name. Without any header the empty name is not
looked up, since the first entry of the table begins as an empty string. -/
structure Answers (headers : List HeaderLine) (n : List UInt8) : Prop where
  complete : Complete (leftover headers) (visible headers)
  nonempty : n = [] → visible headers ≠ []
  answer (l : HeaderLine) : headers.find? (·.name = n) = some l →
    ∃ k, (fields (leftover headers) (visible headers)).find? (·.1.name = n) = some (k, l.value)

/-- How `respond` reads a request. -/
theorem respond_requestText (line : RequestLine) (headers : List HeaderLine)
    (hcount : headers.length ≤ 16) (rest : List UInt8) (r : UInt8) :
    (¬Complete (leftover headers) (visible headers) ∧
      respond (requestText line headers) (r :: rest) = none) ∨
    (Complete (leftover headers) (visible headers) ∧ ∃ parsed entries,
      respond (requestText line headers) (r :: rest) = some parsed ∧
      parsed.reqhdr = entries ++ initialReqhdr.drop entries.length ∧
      List.Forall₂ (Records parsed.block) entries
        (fields (leftover headers) (visible headers))) := by
  obtain ⟨tail, htail, hend⟩ := exists_isEnd headers rest
  obtain ⟨huri, hheaders⟩ := line.headersText_append (appendHeaders (visible headers) tail)
  have htext : requestText line headers ++ 0 :: rest =
      line.append (appendHeaders (visible headers) tail) := by
    rw [requestText_append, htail]
  have hread := readsLines (h := 0) hend (visible headers) (fun l => zero_notMem_of_mem_visible)
    ((length_visible headers).1.trans hcount)
    (fun hne => Nat.lt_of_lt_of_le ((length_visible headers).2 hne) hcount)
    (show 0 + 16 ≤ initialReqhdr.length by decide)
  rcases respond_cases (requestText line headers) rest r with
    ⟨hnone, -⟩ | ⟨-, front, method, uri, qs, prot, hrun⟩
  · rw [htext, huri] at hnone
    exact absurd hnone line.uri_ne
  rw [htext, hheaders] at hrun
  rw [hrun, respondHeaders]
  rcases hread front with ⟨hfault, hnone⟩ | ⟨hcomplete, hreads⟩
  · exact .inl ⟨hfault, by rw [hnone, Option.bind_none]⟩
  · obtain ⟨front', text', entries, hloop, hzero, htoken, -, hentries⟩ := hreads
    have hblock : front' ++ consumed lineDelim text' ++ next lineDelim text' = front' ++ text' := by
      rw [List.append_assoc, consumed_append_next_of_none zero_notMem_lineDelim hzero htoken]
    rw [hloop, Option.bind_some, strtok_between zero_notMem_lineDelim hzero, Option.bind_some]
    refine .inr ⟨hcomplete, _, entries, rfl, by simp, ?_⟩
    rw [Scan.between, hblock]
    exact hentries

section Table

variable {headers : List HeaderLine} {block n : List UInt8} {p : Pointer}

/-- A lookup that finds an entry tells what was sent exactly if the headers answer it. -/
theorem returns_iff_answers_of_some {f : HeaderLine × List UInt8}
    (hcomplete : Complete (leftover headers) (visible headers))
    (hfind : (fields (leftover headers) (visible headers)).find? (·.1.name = n) = some f)
    (hp : stringAt block p = some f.2) :
    Returns block p (headers.find? (·.name = n)) ↔ Answers headers n := by
  have hname : f.1.name = n := by
    have h := List.find?_some hfind
    exact of_decide_eq_true h
  have hmem : f.1 ∈ headers :=
    (List.takeWhile_sublist _).subset (mem_of_mem_fields (List.mem_of_find?_eq_some hfind))
  obtain ⟨l, hl⟩ : ∃ l, headers.find? (·.name = n) = some l := by
    rw [← Option.isSome_iff_exists, List.find?_isSome]
    exact ⟨f.1, hmem, decide_eq_true hname⟩
  rw [hl, Returns, hp, Option.some_inj]
  constructor
  · intro hvalue
    refine ⟨hcomplete, fun hn => absurd (hname.trans hn) f.1.name_ne, fun l' hl' => ⟨f.1, ?_⟩⟩
    rw [hfind, ← Option.some_inj.mp (hl.symm.trans hl'), ← hvalue]
  · intro hanswers
    obtain ⟨k, hk⟩ := hanswers.answer l hl
    rw [Option.some_inj.mp (hfind.symm.trans hk)]

/-- So does a lookup that finds none. -/
theorem returns_iff_answers_of_none (hcomplete : Complete (leftover headers) (visible headers))
    (hfind : (fields (leftover headers) (visible headers)).find? (·.1.name = n) = none)
    (hp : p = if visible headers = [] ∧ n = [] then .literal else .null) :
    Returns block p (headers.find? (·.name = n)) ↔ Answers headers n := by
  cases hl : headers.find? (·.name = n) with
  | none =>
    rw [Returns, hp]
    constructor
    · intro hnull
      refine ⟨hcomplete, fun hn hempty => ?_, fun l hl' => absurd (hl.symm.trans hl') (by simp)⟩
      rw [if_pos ⟨hempty, hn⟩] at hnull
      exact absurd hnull (by simp)
    · intro hanswers
      exact if_neg fun h => hanswers.nonempty h.2 h.1
  | some l =>
    have hname : l.name = n := by
      have h := List.find?_some hl
      exact of_decide_eq_true h
    have hne : n ≠ [] := fun h => l.name_ne (hname.trans h)
    refine iff_of_false ?_ fun hanswers => ?_
    · rw [hp, if_neg fun h => hne h.2, Returns, stringAt]
      simp
    · obtain ⟨k, hk⟩ := hanswers.answer l hl
      exact absurd (hfind.symm.trans hk) (by simp)

end Table

/-- The lookup of a name after the headers of a request are read. -/
theorem exists_requestHeader (line : RequestLine) {headers : List HeaderLine}
    (hcount : headers.length ≤ 16) (hcomplete : Complete (leftover headers) (visible headers))
    (n rest : List UInt8) (r : UInt8) :
    ∃ parsed p, respond (requestText line headers) (r :: rest) = some parsed ∧
      requestHeader parsed.block n parsed.reqhdr = some p ∧
      ((∃ f, (fields (leftover headers) (visible headers)).find? (·.1.name = n) = some f ∧
          stringAt parsed.block p = some f.2) ∨
        ((fields (leftover headers) (visible headers)).find? (·.1.name = n) = none ∧
          p = if visible headers = [] ∧ n = [] then .literal else .null)) := by
  rcases respond_requestText line headers hcount rest r with
    ⟨hfault, -⟩ | ⟨-, parsed, entries, hparsed, htable, hentries⟩
  · exact absurd hcomplete hfault
  have hlength : entries.length ≤ 16 := by
    rw [hentries.length_eq]
    exact (length_fields_le _ _).trans ((length_visible headers).1.trans hcount)
  have hempty : entries.length = 0 ↔ visible headers = [] := by
    rw [hentries.length_eq, List.length_eq_zero_iff, fields_eq_nil_iff]
  rcases requestHeader_entries hentries n (initialReqhdr.drop entries.length) with
    ⟨f, p, hfind, hp, hstring⟩ | ⟨hfind, hp⟩
  · exact ⟨parsed, p, hparsed, htable ▸ hp, .inl ⟨f, hfind, hstring⟩⟩
  · rw [requestHeader_initial _ _ hlength, ← htable] at hp
    exact ⟨parsed, _, hparsed, hp, .inr ⟨hfind, by simp only [hempty]⟩⟩

/-- For a request of at most 16 headers that fits into the buffer, the lookup of a name after the
parsing tells what was sent exactly if the headers answer it. -/
theorem requestHeader_returns_iff (line : RequestLine) (headers : List HeaderLine)
    (n rest : List UInt8) (hcount : headers.length ≤ 16)
    (hfits : (requestText line headers).length ≤ bufSize - 1)
    (hsize : (requestText line headers).length + rest.length = bufSize) :
    (∃ parsed p, respond (requestText line headers) rest = some parsed ∧
      requestHeader parsed.block n parsed.reqhdr = some p ∧
      Returns parsed.block p (headers.find? (·.name = n))) ↔ Answers headers n := by
  obtain ⟨r, rest, rfl⟩ : ∃ r rest', rest = r :: rest' := by
    refine List.exists_cons_of_length_pos ?_
    have hpos : 0 < bufSize := by decide
    omega
  by_cases hcomplete : Complete (leftover headers) (visible headers)
  · obtain ⟨parsed, p, hparsed, hp, hcases⟩ :=
      exists_requestHeader line hcount hcomplete n rest r
    have hreturns : Returns parsed.block p (headers.find? (·.name = n)) ↔ Answers headers n := by
      rcases hcases with ⟨f, hfind, hstring⟩ | ⟨hfind, hnull⟩
      · exact returns_iff_answers_of_some hcomplete hfind hstring
      · exact returns_iff_answers_of_none hcomplete hfind hnull
    rw [← hreturns]
    refine ⟨?_, fun h => ⟨parsed, p, hparsed, hp, h⟩⟩
    rintro ⟨parsed', p', hparsed', hp', h⟩
    obtain rfl := Option.some_inj.mp (hparsed.symm.trans hparsed')
    rwa [Option.some_inj.mp (hp.symm.trans hp')]
  · rcases respond_requestText line headers hcount rest r with ⟨-, hnone⟩ | ⟨hfalse, -⟩
    · rw [hnone]
      exact iff_of_false (by simp) fun h => hcomplete h.complete
    · exact absurd hfalse hcomplete

/-- The request line `GET / HTTP/1.1`. -/
def getRoot : RequestLine where
  method := [71, 69, 84]
  uri := [47]
  prot := [72, 84, 84, 80, 47, 49, 46, 49]
  method_ne := by decide
  method_plain := by simp [wordDelim]
  uri_ne := by decide
  uri_plain := by simp [wordDelim]
  prot_ne := by decide
  prot_plain := by simp [wordDelim]

/-- The header `A:`, without a value. -/
def headerA : HeaderLine :=
  ⟨[65], 0, [], by simp, by simp [nameDelim], by simp, by decide⟩

/-- The header `B:x`. -/
def headerB : HeaderLine :=
  ⟨[66], 0, [120], by decide, by simp [nameDelim], by simp [lineDelim], by decide⟩

/-- The header of a request with the header `B:x` only is returned. -/
theorem requestHeader_returns_headerB :
    ∃ parsed p, respond (requestText getRoot [headerB]) (List.replicate 65512 0) = some parsed ∧
      requestHeader parsed.block [66] parsed.reqhdr = some p ∧
      Returns parsed.block p ([headerB].find? (·.name = [66])) := by
  refine (requestHeader_returns_iff _ _ _ _ (by decide) (by decide)
    (by rw [List.length_replicate]; decide)).mpr ⟨by decide, by decide, fun l hl => ?_⟩
  cases hl.symm.trans (show [headerB].find? (·.name = [66]) = some headerB by decide)
  exact ⟨headerB, by decide⟩

/-- A request with the headers `A:` and `B:x`: the second is taken for the value of the first, and
the lookup of its name returns a null pointer. -/
theorem requestHeader_misses_headerB :
    ∃ parsed, respond (requestText getRoot [headerA, headerB]) (List.replicate 65508 0) =
        some parsed ∧
      [headerA, headerB].find? (·.name = [66]) = some headerB ∧
      requestHeader parsed.block [66] parsed.reqhdr = some .null := by
  have hcomplete : Complete (leftover [headerA, headerB]) (visible [headerA, headerB]) := by
    decide
  obtain ⟨parsed, p, hparsed, hp, hcases⟩ := exists_requestHeader getRoot (by decide) hcomplete [66]
    (List.replicate 65507 0) 0
  refine ⟨parsed, hparsed, by decide, ?_⟩
  have hnone : (fields (leftover [headerA, headerB]) (visible [headerA, headerB])).find?
      (·.1.name = [66]) = none := by decide
  rcases hcases with ⟨f, hfind, -⟩ | ⟨-, hnull⟩
  · exact absurd (hnone.symm.trans hfind) (by simp)
  · rw [hp, hnull]
    rfl

end Hack.NatServer
