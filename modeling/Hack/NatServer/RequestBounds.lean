import Hack.NatServer.Request

/-!
# When the parser stays inside of its buffer

The parser of requests trusts its input in three places: the buffer has a byte left for the
closing zero, the request line has a URI, and every name of a header is followed by a value. It
also looks for a blank line behind a value without a look at where the buffer ends. Everything
else stays inside of the buffer for every request.
-/

namespace Hack.NatServer

open CString Strtok

variable {block text front todo post : List UInt8} {src dst : ℕ} {s : List UInt8} {uri h : ℕ}
  {reqhdr : List Header}

theorem zero_notMem_wordDelim : 0 ∉ wordDelim := by decide

theorem zero_notMem_uriDelim : 0 ∉ uriDelim := by decide

theorem zero_notMem_nameDelim : 0 ∉ nameDelim := by decide

theorem zero_notMem_lineDelim : 0 ∉ lineDelim := by decide

/-- Where a string of the buffer ends. -/
theorem end_of_string {i : ℕ} (hblock : block.drop i = s ++ 0 :: post) :
    i + s.length < block.length ∧ block.drop (i + s.length) = 0 :: post := by
  constructor
  · have h := congrArg List.length hblock
    rw [List.length_drop, List.length_append, List.length_cons] at h
    omega
  · rw [← List.drop_drop, hblock, List.drop_left]

/-- The loop of `uri_unescape` ends, and leaves the buffer from the end of the string on as it
is. -/
theorem exists_unescapeFrom (htodo : 0 ∉ todo) (hblock : block.drop src = todo ++ 0 :: post)
    (hdst : dst ≤ src) :
    ∃ block', unescapeFrom block src dst = some block' ∧ block'.length = block.length ∧
      block'.drop (src + todo.length) = 0 :: post := by
  induction hlength : todo.length using Nat.strong_induction_on
    generalizing todo block src dst with
  | _ k ih =>
    obtain ⟨hsrc, hend⟩ := end_of_string hblock
    have hstep := unescapeByte_cases htodo post
    rw [← hblock] at hstep
    rw [unescapeFrom]
    split
    · next h =>
      rw [h] at hstep
      simp at hstep
    · rw [put, if_pos (by omega)]
      refine ⟨_, rfl, List.length_set, ?_⟩
      rw [← hlength, List.drop_set]
      split_ifs with hinside
      · exact hend
      · -- Nothing was read, and the end of the string is written again.
        rw [hend, show dst - (src + todo.length) = 0 by omega, List.set_cons_zero]
    · next chr n h =>
      rw [h] at hstep
      simp only [Option.some.injEq, reduceCtorEq, Prod.mk.injEq, false_or] at hstep
      obtain ⟨chr, n, ⟨rfl, rfl⟩, hpos, hle⟩ := hstep
      rw [if_pos (by omega)]
      have hnext : (block.set dst chr).drop (src + n) = todo.drop n ++ 0 :: post := by
        rw [List.drop_set, if_pos (by omega), ← List.drop_drop, hblock,
          List.drop_append_of_le_length hle]
      have htail : 0 ∉ todo.drop n := fun h => htodo (List.mem_of_mem_drop h)
      have hlt : (todo.drop n).length < k := by
        rw [List.length_drop]
        omega
      obtain ⟨block', hrun, hsize, hrest⟩ :=
        ih _ hlt htail hnext (show dst + 1 ≤ src + n by omega) rfl
      refine ⟨block', hrun, by rw [hsize, List.length_set], ?_⟩
      rw [← hrest, List.length_drop, ← hlength]
      congr 1
      omega

/-- `uri_unescape` of a string ends, and leaves the buffer from the end of the string on as it
is. -/
theorem exists_uriUnescape (htodo : 0 ∉ todo) (hblock : block.drop uri = todo ++ 0 :: post) :
    ∃ block', uriUnescape block uri = some block' ∧ block'.length = block.length ∧
      block'.drop (uri + todo.length) = 0 :: post := by
  have hspan : span (fun c => c = 0 ∨ isSpace c ∨ c = 37) (block.drop uri) = some _ :=
    hblock ▸ span_eq (by simp) todo post
  generalize hk : (todo.takeWhile fun b => !decide (b = 0 ∨ isSpace b ∨ b = 37)).length = k
    at hspan
  have hle : k ≤ todo.length := hk ▸ (List.takeWhile_sublist _).length_le
  have hrest : block.drop (uri + k) = todo.drop k ++ 0 :: post := by
    rw [← List.drop_drop, hblock, List.drop_append_of_le_length hle]
  have htail : 0 ∉ todo.drop k := fun h => htodo (List.mem_of_mem_drop h)
  obtain ⟨block', hrun, hsize, hend⟩ := exists_unescapeFrom htail hrest (Nat.le_refl _)
  refine ⟨block', ?_, hsize, ?_⟩
  · rw [uriUnescape, hspan]
    exact hrun
  · rw [← hend, List.length_drop]
    congr 1
    omega

/-- The query string is split off inside of a string. -/
theorem exists_splitQuery (hblock : block.drop uri = s ++ 0 :: post) :
    ∃ block' qs, splitQuery block uri = some (block', qs) ∧ block'.length = block.length ∧
      block'.drop (uri + s.length) = 0 :: post := by
  have hspan : span (fun c => c = 0 ∨ c = 63) (block.drop uri) = some _ :=
    hblock ▸ span_eq (by simp) s post
  generalize hk : (s.takeWhile fun b => !decide (b = 0 ∨ b = 63)).length = k at hspan
  have hle : k ≤ s.length := hk ▸ (List.takeWhile_sublist _).length_le
  obtain ⟨hsize, hend⟩ := end_of_string hblock
  obtain ⟨c, hc⟩ : ∃ c, block[uri + k]? = some c :=
    ⟨_, List.getElem?_eq_getElem (by omega)⟩
  rw [splitQuery, hspan]
  simp only [Option.bind_eq_bind, Option.bind_some, hc]
  by_cases hmark : c = 63
  · -- The question mark is not the end of the string.
    have hlt : k < s.length := by
      refine Nat.lt_of_le_of_ne hle fun h => ?_
      rw [h, ← Nat.add_zero (uri + s.length), ← List.getElem?_drop, hend] at hc
      simp [hmark] at hc
    rw [if_pos hmark, put, if_pos (by omega), Option.bind_some]
    refine ⟨_, _, rfl, List.length_set, ?_⟩
    rw [List.drop_set, if_pos (by omega), hend]
  · rw [if_neg hmark]
    exact ⟨_, _, rfl, rfl, hend⟩

/-- The number of blanks that a value begins with. -/
def leadingSpaces (value : List UInt8) : ℕ := (value.takeWhile (· = 32)).length

/-- Where the value of a header stands: the skipped blanks, the length of the rest, and the bytes
behind its end. -/
theorem scan_value {value rest : List UInt8} (hvalue : 0 ∉ value)
    (hblock : block = front ++ (value ++ 0 :: rest)) :
    span (· ≠ 32) (block.drop front.length) = some (leadingSpaces value) ∧
      span (· = 0) (block.drop (front.length + leadingSpaces value)) =
        some (value.length - leadingSpaces value) ∧
      ∀ i, block[front.length + leadingSpaces value + 1 + (value.length - leadingSpaces value) + i]?
        = rest[i]? := by
  have hle : leadingSpaces value ≤ value.length := (List.takeWhile_sublist _).length_le
  have hdrop : block.drop front.length = value ++ 0 :: rest := by
    rw [hblock, List.drop_left]
  refine ⟨?_, ?_, fun i => ?_⟩
  · rw [hdrop, span_eq (by decide), leadingSpaces]
    simp
  · have hstring : ∀ b ∈ value.drop (leadingSpaces value), decide (b = 0) = false := fun b hb =>
      decide_eq_false fun h => hvalue (h ▸ List.mem_of_mem_drop hb)
    have hspan : span (· = 0) (value.drop (leadingSpaces value) ++ 0 :: rest) = some _ :=
      span_append hstring (by decide) rest
    rw [← List.drop_drop, hdrop, List.drop_append_of_le_length hle, hspan, List.length_drop]
  · rw [hblock, ← List.append_assoc, List.getElem?_append_right (by rw [List.length_append]; omega),
      List.length_append, show front.length + leadingSpaces value + 1 +
        (value.length - leadingSpaces value) + i - (front.length + value.length) = i + 1 by omega,
      List.getElem?_cons_succ]

/-- The text of a value: what follows a name. -/
def valueText (text : List UInt8) : List UInt8 := next nameDelim text

/-- What the loop over the headers has at the end of its body: the place behind a header. -/
def afterHeader (front text : List UInt8) : Scan :=
  .between (front ++ consumed nameDelim text ++ consumed lineDelim (valueText text))
    (next lineDelim (valueText text))

/-- The entry that the loop writes for a header. -/
def headerAt (front text : List UInt8) : Header where
  name := .buf (front ++ separators nameDelim text).length
  value := .buf
    ((front ++ consumed nameDelim text ++ separators lineDelim (valueText text)).length +
      leadingSpaces (token lineDelim (valueText text)))

/-- The body of the loop over the headers. -/
theorem readHeaders_succ (htext : 0 ∈ text) (hh : h < reqhdr.length) (left : ℕ)
    (front : List UInt8) :
    readHeaders (left + 1) h (.between front text) reqhdr =
      if token nameDelim text = [] then
        some (.between (front ++ consumed nameDelim text) (valueText text), reqhdr)
      else if token lineDelim (valueText text) = [] then none
      else
        let scan := afterHeader front text
        let reqhdr := reqhdr.set h (headerAt front text)
        let ending := behind lineDelim (valueText text)
        ending[2]?.bind fun c₁ =>
          if c₁ = 13 then
            ending[3]?.bind fun c₂ =>
              if c₂ = 10 then some (scan, reqhdr) else readHeaders left (h + 1) scan reqhdr
          else readHeaders left (h + 1) scan reqhdr := by
  have hvalueText : 0 ∈ valueText text := zero_mem_next zero_notMem_nameDelim htext
  rw [readHeaders, strtok_between zero_notMem_nameDelim htext]
  by_cases hname : token nameDelim text = []
  · rw [if_pos hname, if_pos hname]
    rfl
  rw [if_neg hname, if_neg hname, Option.bind_eq_bind, Option.bind_some]
  dsimp only
  rw [← valueText, strtok_between zero_notMem_lineDelim hvalueText]
  by_cases hvalue : token lineDelim (valueText text) = []
  · rw [if_pos hvalue, if_pos hvalue]
    rfl
  rw [if_neg hvalue, if_neg hvalue]
  simp only [Option.bind_eq_bind, Option.bind_some]
  obtain ⟨c, more, hending, -, -⟩ := exists_behind zero_notMem_lineDelim hvalueText
  have hblock : (afterHeader front text).block =
      front ++ consumed nameDelim text ++ separators lineDelim (valueText text) ++
        (token lineDelim (valueText text) ++ 0 :: more) := by
    rw [afterHeader, Scan.between, List.append_assoc _ (consumed lineDelim _),
      consumed_append_next zero_notMem_lineDelim hvalueText, hending, List.tail_cons,
      ← List.append_assoc]
  obtain ⟨hspaces, hlength, hbytes⟩ := scan_value (fun h => (mem_token h).1 rfl) hblock
  rw [← afterHeader, hspaces, Option.bind_some, if_pos hh, hlength, Option.bind_some, hbytes,
    hbytes, hending]
  rfl

/-- Where the search for headers begins. -/
def headersText (text : List UInt8) : List UInt8 :=
  next wordDelim (next uriDelim (next wordDelim text))

/-- What precedes that place once the request line is read. -/
def lineFront (text : List UInt8) : List UInt8 :=
  consumed wordDelim text ++ consumed uriDelim (next wordDelim text) ++
    consumed wordDelim (next uriDelim (next wordDelim text))

/-- Where the URI is. -/
def uriAt (text : List UInt8) : ℕ :=
  (consumed wordDelim text ++ separators uriDelim (next wordDelim text)).length

/-- The URI is a string that ends before the headers. -/
theorem exists_drop_uriAt (htext : 0 ∈ text) :
    (∃ post, (lineFront text ++ headersText text).drop (uriAt text) =
      token uriDelim (next wordDelim text) ++ 0 :: post) ∧
    uriAt text + (token uriDelim (next wordDelim text)).length ≤ (lineFront text).length := by
  have huriText : 0 ∈ next wordDelim text := zero_mem_next zero_notMem_wordDelim htext
  obtain ⟨c, more, hbehind, -, -⟩ := exists_behind zero_notMem_uriDelim huriText
  by_cases hc : c = 0
  · -- The request ends with the URI.
    have hnext : next uriDelim (next wordDelim text) = 0 :: more := by
      rw [next, hbehind]
      simp [hc]
    have hconsumed : consumed uriDelim (next wordDelim text) =
        separators uriDelim (next wordDelim text) ++ token uriDelim (next wordDelim text) := by
      rw [consumed, hbehind]
      simp [hc]
    obtain ⟨-, hnone, hstay⟩ := parts_end zero_notMem_wordDelim more
    rw [lineFront, headersText, uriAt, hnext, hnone, hstay, hconsumed]
    refine ⟨⟨more, ?_⟩, ?_⟩
    · rw [List.append_nil, ← List.append_assoc, List.append_assoc _ (token _ _), List.drop_left]
    · simp only [List.length_append, List.length_nil]
      omega
  · have hconsumed : consumed uriDelim (next wordDelim text) =
        separators uriDelim (next wordDelim text) ++
          (token uriDelim (next wordDelim text) ++ [0]) := by
      rw [consumed, hbehind]
      simp [hc]
    rw [lineFront, uriAt, hconsumed]
    refine ⟨⟨consumed wordDelim (next uriDelim (next wordDelim text)) ++ headersText text, ?_⟩, ?_⟩
    · rw [← List.append_assoc (consumed wordDelim text), List.append_assoc, List.append_assoc,
        List.drop_left, List.append_assoc, List.singleton_append]
    · simp only [List.length_append, List.length_singleton]
      omega

/-- `uri_unescape` and the search for the query string change only what precedes the headers. -/
theorem exists_unescape_split (htodo : 0 ∉ todo)
    (hblock : (front ++ text).drop uri = todo ++ 0 :: post)
    (hfront : uri + todo.length ≤ front.length) :
    ∃ block front' qs, uriUnescape (front ++ text) uri = some block ∧
      splitQuery block uri = some (front' ++ text, qs) ∧ front'.length = front.length := by
  obtain ⟨block, hunescape, hsize, hend⟩ := exists_uriUnescape htodo hblock
  have hstring : block.drop uri = (block.drop uri).take todo.length ++ 0 :: post := by
    rw [← hend, ← List.drop_drop, List.take_append_drop]
  have hlength : ((block.drop uri).take todo.length).length = todo.length := by
    rw [List.length_take, List.length_drop, hsize, List.length_append]
    omega
  obtain ⟨block', qs, hsplit, hsize', hend'⟩ := exists_splitQuery hstring
  rw [hlength] at hend'
  have hsame : block'.drop front.length = text := by
    obtain ⟨-, hold⟩ := end_of_string hblock
    rw [← Nat.add_sub_of_le hfront, ← List.drop_drop, hend', ← hold, List.drop_drop,
      Nat.add_sub_of_le hfront, List.drop_left]
  refine ⟨block, block'.take front.length, qs, hunescape, ?_, ?_⟩
  · rw [hsplit]
    nth_rewrite 1 [← List.take_append_drop front.length block']
    rw [hsame]
  · rw [List.length_take, hsize', hsize, List.length_append]
    omega

/-- What `respond` does once the request line is read. -/
def respondHeaders (scan : Scan) (method : Option ℕ) (uri qs : ℕ) (prot : Option ℕ) :
    Option Parsed :=
  (readHeaders 16 0 scan initialReqhdr).bind fun out =>
    (strtok lineDelim out.1).bind fun last =>
      some ⟨last.1.block, method, uri, qs, prot, out.2, last.2⟩

/-- `respond` comes to the headers if there is a URI, and else dereferences a null pointer. -/
theorem respond_cases (received rest : List UInt8) (r : UInt8) :
    (token uriDelim (next wordDelim (received ++ 0 :: rest)) = [] ∧
      respond received (r :: rest) = none) ∨
    (token uriDelim (next wordDelim (received ++ 0 :: rest)) ≠ [] ∧
      ∃ front method uri qs prot, respond received (r :: rest) =
        respondHeaders (.between front (headersText (received ++ 0 :: rest)))
          method uri qs prot) := by
  generalize htext : received ++ 0 :: rest = text
  have hzero : 0 ∈ text := by
    rw [← htext]
    simp
  have huriText := zero_mem_next zero_notMem_wordDelim hzero
  have hprotText := zero_mem_next zero_notMem_uriDelim huriText
  have hstart : (⟨text, 0⟩ : Scan) = .between [] text := rfl
  rw [respond, put_append, htext]
  simp only [Option.bind_eq_bind, Option.bind_some, hstart,
    strtok_between zero_notMem_wordDelim hzero, strtok_between zero_notMem_uriDelim huriText,
    strtok_between zero_notMem_wordDelim hprotText, List.nil_append]
  by_cases huri : token uriDelim (next wordDelim text) = []
  · exact .inl ⟨huri, by simp [huri]⟩
  · refine .inr ⟨huri, ?_⟩
    obtain ⟨⟨post, hdrop⟩, hfront⟩ := exists_drop_uriAt hzero
    obtain ⟨block, front', qs, hunescape, hsplit, hlength⟩ :=
      exists_unescape_split (fun h => (mem_token h).1 rfl) hdrop hfront
    have hscan : ∀ front text : List UInt8, (Scan.between front text).block = front ++ text ∧
          (Scan.between front text).save = front.length := fun _ _ => ⟨rfl, rfl⟩
    rw [if_neg huri, Option.bind_some, ← lineFront, ← headersText, ← uriAt, (hscan _ _).1,
      (hscan _ _).2, hunescape, Option.bind_some, hsplit, Option.bind_some, ← hlength]
    exact ⟨front', _, _, qs, _, rfl⟩

/-- The headers that are read have their values inside of the buffer. Behind each name there is a
byte on its line or on a later one before the string ends, and behind the value the buffer has
the two bytes that the search for a blank line looks at, or the three of them if the second is a
carriage return. -/
def HeadersInside : ℕ → List UInt8 → Prop
  | 0, _ => True
  | left + 1, text =>
    token nameDelim text = [] ∨ token lineDelim (valueText text) ≠ [] ∧
        2 < (behind lineDelim (valueText text)).length ∧
        ((behind lineDelim (valueText text))[2]? = some 13 →
          3 < (behind lineDelim (valueText text)).length) ∧
        ((behind lineDelim (valueText text))[2]? = some 13 ∧
            (behind lineDelim (valueText text))[3]? = some 10 ∨
          HeadersInside left (next lineDelim (valueText text)))

/-- The loop over the headers stays inside of the buffer and of the table exactly for such
headers, and leaves the pointer of `strtok` in the string. -/
theorem readHeaders_cases (htext : 0 ∈ text) {left : ℕ} (hsize : h + left ≤ reqhdr.length)
    (front : List UInt8) : (HeadersInside left text ∧ ∃ front' text' reqhdr', 0 ∈ text' ∧
      readHeaders left h (.between front text) reqhdr = some (.between front' text', reqhdr')) ∨
    (¬HeadersInside left text ∧ readHeaders left h (.between front text) reqhdr = none) := by
  induction left generalizing text h reqhdr front with
  | zero => exact .inl ⟨trivial, front, text, reqhdr, htext, rfl⟩
  | succ left ih =>
    have hvalueText : 0 ∈ valueText text := zero_mem_next zero_notMem_nameDelim htext
    have hnext := zero_mem_next zero_notMem_lineDelim hvalueText
    rw [readHeaders_succ htext (by omega), HeadersInside]
    by_cases hname : token nameDelim text = []
    · rw [if_pos hname]
      exact .inl ⟨.inl hname, _, _, _, hvalueText, rfl⟩
    by_cases hvalue : token lineDelim (valueText text) = []
    · rw [if_neg hname, if_pos hvalue]
      exact .inr ⟨fun h => h.elim hname fun h => h.1 hvalue, rfl⟩
    rw [if_neg hname, if_neg hvalue]
    have hsize' : h + 1 + left ≤ (reqhdr.set h (headerAt front text)).length := by
      rw [List.length_set]
      omega
    have hrest := ih hnext hsize'
      (front ++ consumed nameDelim text ++ consumed lineDelim (valueText text))
    rw [← afterHeader] at hrest
    dsimp only
    rcases hc₁ : (behind lineDelim (valueText text))[2]? with _ | c₁
    · refine .inr ⟨fun h => h.elim hname fun h => ?_, rfl⟩
      exact absurd h.2.1 (Nat.not_lt.mpr (List.getElem?_eq_none_iff.mp hc₁))
    have htwo := (List.getElem?_eq_some_iff.mp hc₁).1
    by_cases hreturn : c₁ = 13
    · rcases hc₂ : (behind lineDelim (valueText text))[3]? with _ | c₂
      · refine .inr ⟨fun h => h.elim hname fun h => ?_, by simp [hreturn]⟩
        exact absurd (h.2.2.1 (by rw [hreturn])) (Nat.not_lt.mpr (List.getElem?_eq_none_iff.mp hc₂))
      have hthree := (List.getElem?_eq_some_iff.mp hc₂).1
      by_cases hnewline : c₂ = 10
      · -- A blank line ends the headers.
        refine .inl ⟨.inr ⟨hvalue, htwo, fun _ => hthree, .inl ?_⟩, ?_⟩
        · rw [hreturn, hnewline]
          exact ⟨rfl, rfl⟩
        · rw [Option.bind_some, if_pos hreturn, Option.bind_some, if_pos hnewline]
          exact ⟨_, _, _, hnext, rfl⟩
      · simpa [hname, hvalue, htwo, hthree, hreturn, hnewline] using hrest
    · simpa [hname, hvalue, htwo, hreturn] using hrest

/-- The bytes of a request, with the zero behind them, that the parser can read: there is a URI
behind the method, and the headers have their values inside. -/
structure RequestInside (text : List UInt8) : Prop where
  uri : token uriDelim (next wordDelim text) ≠ []
  headers : HeadersInside 16 (headersText text)

/-- `respond` parses a request that leaves room for the zero byte exactly if the parser can read
it. -/
theorem isSome_respond_cons_iff (received rest : List UInt8) (r : UInt8) :
    (respond received (r :: rest)).isSome ↔ RequestInside (received ++ 0 :: rest) := by
  have hzero : 0 ∈ received ++ 0 :: rest := by simp
  have hheaders : 0 ∈ headersText (received ++ 0 :: rest) :=
    zero_mem_next zero_notMem_wordDelim (zero_mem_next zero_notMem_uriDelim
      (zero_mem_next zero_notMem_wordDelim hzero))
  rcases respond_cases received rest r with
    ⟨huri, hnone⟩ | ⟨huri, front, method, uri, qs, prot, hrun⟩
  · rw [hnone]
    exact iff_of_false (by simp) fun h => h.uri huri
  · rw [hrun, respondHeaders]
    have hsize : 0 + 16 ≤ initialReqhdr.length := by decide
    rcases readHeaders_cases hheaders hsize front with
      ⟨hinside, front', text', reqhdr', hzero', hread⟩ | ⟨hfault, hread⟩
    · rw [hread, Option.bind_some, strtok_between zero_notMem_lineDelim hzero']
      exact iff_of_true rfl ⟨huri, hinside⟩
    · rw [hread]
      exact iff_of_false (by simp) fun h => hfault h.headers

/-- For every received bytes, `respond` dereferences no null pointer and stays inside of the
buffer and of the table of headers exactly if it has received less than the buffer holds and the
parser can read the request. -/
theorem respond_inside_iff (received rest : List UInt8)
    (hsize : received.length + rest.length = bufSize) :
    (respond received rest).isSome ↔
      received.length < bufSize ∧ RequestInside (received ++ 0 :: rest.tail) := by
  cases rest with
  | nil =>
    rw [List.length_nil, Nat.add_zero] at hsize
    have hnone : respond received [] = none := by
      rw [respond, List.append_nil, put, if_neg (Nat.lt_irrefl _)]
      rfl
    rw [hnone]
    exact iff_of_false (by simp) fun h => absurd hsize (Nat.ne_of_lt h.1)
  | cons r rest =>
    rw [List.length_cons] at hsize
    rw [isSome_respond_cons_iff, List.tail_cons]
    exact ⟨fun h => ⟨by omega, h⟩, fun h => h.2⟩

/-- The request line `GET /` alone is parsed. -/
theorem respond_inside_getRoot :
    (respond [71, 69, 84, 32, 47] (List.replicate 65530 0)).isSome := by
  refine (respond_inside_iff _ _ (by rw [List.length_replicate]; decide)).mpr ⟨by decide, ?_⟩
  generalize (List.replicate 65530 (0 : UInt8)).tail = rest
  have hnil : ∀ delim : List UInt8, ∀ b ∈ ([] : List UInt8), b ∈ delim := by simp
  have hmethod : next wordDelim ([71, 69, 84, 32, 47] ++ 0 :: rest) = 47 :: 0 :: rest := by
    simpa using (next_eq (s := []) (t := [71, 69, 84]) (c := 32) (hnil _) (by simp [wordDelim])
      (by simp) (by simp [wordDelim]) zero_notMem_wordDelim (47 :: 0 :: rest)).1
  obtain ⟨huri, -, hline⟩ := next_end (s := []) (t := [47]) (hnil _) (by simp [uriDelim])
    zero_notMem_uriDelim rest
  refine ⟨?_, .inl ?_⟩
  · rw [hmethod]
    exact ne_of_eq_of_ne huri (by decide)
  · rw [headersText, hmethod, show next uriDelim (47 :: 0 :: rest) = 0 :: rest from hline,
      (parts_end zero_notMem_wordDelim rest).2.2]
    exact (parts_end zero_notMem_nameDelim rest).1

/-- The received bytes `GET` have no URI: `respond` passes a null pointer to `uri_unescape`. -/
theorem respond_get_faults : ¬(respond [71, 69, 84] (List.replicate 65532 0)).isSome := by
  have hword : ∀ b ∈ ([71, 69, 84] : List UInt8), b ≠ 0 ∧ b ∉ wordDelim := by
    simp [wordDelim]
  have hnil : ∀ b ∈ ([] : List UInt8), b ∈ wordDelim := by simp
  obtain ⟨-, -, hnext⟩ := next_end hnil hword zero_notMem_wordDelim (List.replicate 65531 0)
  rw [List.nil_append] at hnext
  rw [List.replicate_succ, isSome_respond_cons_iff]
  intro hinside
  refine hinside.uri ?_
  rw [hnext]
  exact (parts_end zero_notMem_uriDelim _).1

end Hack.NatServer
