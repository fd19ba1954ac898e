import Hack.Hex
import Mathlib.Data.List.Nodup

/-!
# Reading keys and values back

This file embeds `SplitStrict` of `0xgo/util/util.go`. It reads lines of the form `key=value` into
a map, and takes the quotes away from a value that is longer than two bytes. The quoted form of
the empty value has two bytes, so its quotes stay. Strings are lists of bytes, and quoting is
given by what the function rests on.
-/

namespace Hack.SplitStrict

open Function

/-- `strconv.Quote` and `strconv.Unquote`: a quoted string is between double quotes, without
newlines, and is read back as it was. -/
structure Strconv where
  escape : List UInt8 → List UInt8
  unquote : List UInt8 → Option (List UInt8)
  escape_nil : escape [] = []
  newline_not_mem : ∀ v, 10 ∉ escape v
  unquote_quote : ∀ v, unquote (34 :: (escape v ++ [34])) = some v

/-- `strconv.Quote`. -/
def Strconv.quote (c : Strconv) (v : List UInt8) : List UInt8 := 34 :: (c.escape v ++ [34])

/-- A map from strings to strings. -/
abbrev Map := List UInt8 → Option (List UInt8)

/-- `strings.SplitN` with the separator `=` and two parts. -/
def splitN (line : List UInt8) : List (List UInt8) :=
  if 61 ∈ line then [line.takeWhile (· ≠ 61), (line.dropWhile (· ≠ 61)).tail] else [line]

/-- The value of a line: without its quotes, if it has them. -/
def unquoted (c : Strconv) (value : List UInt8) : Option (List UInt8) :=
  if value.length > 2 ∧ value.head? = some 34 ∧ value.getLast? = some 34 then c.unquote value
  else some value

/-- A turn of the loop over the lines. -/
def readLine (c : Strconv) (out : Map) (line : List UInt8) : Map :=
  match splitN line with
  | [key, value] =>
    if key.length = 0 ∨ key.head? = some 35 then out
    else
      match unquoted c value with
      | none => out
      | some value => update out key (some value)
  | _ => out

/-- `SplitStrict`. -/
def splitStrict (c : Strconv) (content : List UInt8) : Map :=
  (content.splitOn 10).foldl (readLine c) fun _ => none

/-- A key: it is not empty, has no `=` and no newline in it and does not begin with `#`. -/
structure Key where
  bytes : List UInt8
  ne_nil : bytes ≠ []
  equals_not_mem : 61 ∉ bytes
  newline_not_mem : 10 ∉ bytes
  head_ne : bytes.head? ≠ some 35

/-- A finite map, by its entries in some order. -/
structure Entries where
  list : List (Key × List UInt8)
  nodup : (list.map fun e => e.1.bytes).Nodup

/-- The line of an entry. -/
def entryLine (c : Strconv) (e : Key × List UInt8) : List UInt8 := e.1.bytes ++ 61 :: c.quote e.2

/-- The text with a line for each entry. -/
def text (c : Strconv) (m : Entries) : List UInt8 := [10].intercalate (m.list.map (entryLine c))

/-- The text is read back as the map it was written from. -/
def ReadsBack (c : Strconv) (m : Entries) : Prop :=
  ∀ key value, splitStrict c (text c m) key = some value ↔
    ∃ e ∈ m.list, e.1.bytes = key ∧ e.2 = value

variable {c : Strconv} {m : Entries} {v : List UInt8}

/-- A value is written as its quotes alone exactly if it is empty. -/
theorem escape_eq_nil_iff (c : Strconv) (v : List UInt8) : c.escape v = [] ↔ v = [] := by
  constructor
  · intro h
    have hread := c.unquote_quote v
    have hnil := c.unquote_quote []
    rw [c.escape_nil] at hnil
    rw [h, hnil] at hread
    exact (Option.some_inj.mp hread).symm
  · rintro rfl
    exact c.escape_nil

/-- The quotes of an empty value stay. -/
theorem unquoted_quote (c : Strconv) (v : List UInt8) :
    unquoted c (c.quote v) = some (if v = [] then [34, 34] else v) := by
  by_cases hv : v = []
  · rw [hv, Strconv.quote, c.escape_nil]
    rfl
  · have hescape : c.escape v ≠ [] := fun h => hv ((escape_eq_nil_iff c v).mp h)
    have hlength := List.length_pos_of_ne_nil hescape
    have hlong : (c.quote v).length > 2 := by
      simp only [Strconv.quote, List.length_cons, List.length_append, List.length_nil]
      omega
    have hlast : (c.quote v).getLast? = some 34 := by
      rw [Strconv.quote, ← List.cons_append, List.getLast?_concat]
    rw [unquoted, if_pos ⟨hlong, rfl, hlast⟩, if_neg hv]
    exact c.unquote_quote v

/-- A key ends at the first `=`. -/
theorem splitN_entryLine (c : Strconv) (e : Key × List UInt8) :
    splitN (entryLine c e) = [e.1.bytes, c.quote e.2] := by
  have hkey (b : UInt8) (hb : b ∈ e.1.bytes) : decide (b ≠ 61) = true :=
    decide_eq_true fun h => e.1.equals_not_mem (h ▸ hb)
  rw [splitN, if_pos (by simp [entryLine]), entryLine, List.takeWhile_append_of_pos hkey,
    List.dropWhile_append_of_pos hkey]
  simp

/-- What the line of an entry does. -/
theorem readLine_entryLine (c : Strconv) (out : Map) (e : Key × List UInt8) :
    readLine c out (entryLine c e) =
      update out e.1.bytes (some (if e.2 = [] then [34, 34] else e.2)) := by
  have hkey : ¬(e.1.bytes.length = 0 ∨ e.1.bytes.head? = some 35) := by
    rw [List.length_eq_zero_iff, not_or]
    exact ⟨e.1.ne_nil, e.1.head_ne⟩
  simp only [readLine, splitN_entryLine, if_neg hkey, unquoted_quote]

/-- What the lines of entries leave in the map. -/
theorem foldl_readLine {list : List (Key × List UInt8)}
    (hnodup : (list.map fun e => e.1.bytes).Nodup) (out : Map) (key value : List UInt8) :
    (list.map (entryLine c)).foldl (readLine c) out key = some value ↔
      (∃ e ∈ list, e.1.bytes = key ∧ (if e.2 = [] then [34, 34] else e.2) = value) ∨
        (∀ e ∈ list, e.1.bytes ≠ key) ∧ out key = some value := by
  induction list generalizing out with
  | nil => simp
  | cons e list ih =>
    rw [List.map_cons, List.nodup_cons] at hnodup
    obtain ⟨hnew, hnodup⟩ := hnodup
    have hothers : ∀ e' ∈ list, e'.1.bytes ≠ e.1.bytes := fun e' he' heq =>
      hnew (heq ▸ List.mem_map_of_mem he')
    rw [List.map_cons, List.foldl_cons, readLine_entryLine, ih hnodup, List.exists_mem_cons_iff,
      List.forall_mem_cons]
    rcases eq_or_ne key e.1.bytes with rfl | hkey
    · have hnone : ¬∃ e' ∈ list, e'.1.bytes = e.1.bytes ∧
          (if e'.2 = [] then [34, 34] else e'.2) = value := by
        rintro ⟨e', he', heq, -⟩
        exact hothers e' he' heq
      rw [update_self, Option.some_inj, or_iff_right hnone, and_iff_right hothers]
      simp [hnone]
    · rw [update_of_ne hkey]
      simp [hkey.symm]

/-- The lines of the text. -/
theorem splitStrict_text (c : Strconv) (m : Entries) :
    splitStrict c (text c m) = (m.list.map (entryLine c)).foldl (readLine c) fun _ => none := by
  have hlines : ∀ line ∈ m.list.map (entryLine c), 10 ∉ line := by
    intro line hline
    obtain ⟨e, -, rfl⟩ := List.mem_map.mp hline
    simp [entryLine, Strconv.quote, e.1.newline_not_mem, c.newline_not_mem]
  rw [splitStrict, text]
  by_cases hempty : m.list.map (entryLine c) = []
  · -- Without entries the text is a single empty line, which has no key.
    rw [hempty]
    rfl
  · rw [List.splitOn_intercalate 10 hlines hempty]

/-- A map is read back exactly if it has no empty value. -/
theorem readsBack_iff (c : Strconv) (m : Entries) : ReadsBack c m ↔ ∀ e ∈ m.list, e.2 ≠ [] := by
  have hread (key value : List UInt8) : splitStrict c (text c m) key = some value ↔
      ∃ e ∈ m.list, e.1.bytes = key ∧ (if e.2 = [] then [34, 34] else e.2) = value := by
    rw [splitStrict_text, foldl_readLine m.nodup]
    simp
  constructor
  · intro h e he hempty
    -- The key of an empty value has its quotes, and no other entry has that key.
    obtain ⟨e', he', hkey, hvalue⟩ :=
      (h _ [34, 34]).mp ((hread _ _).mpr ⟨e, he, rfl, if_pos hempty⟩)
    obtain rfl := List.inj_on_of_nodup_map m.nodup he' he hkey
    rw [hempty] at hvalue
    cases hvalue
  · intro h key value
    rw [hread]
    constructor
    · rintro ⟨e, he, hkey, hvalue⟩
      exact ⟨e, he, hkey, by rwa [if_neg (h e he)] at hvalue⟩
    · rintro ⟨e, he, hkey, hvalue⟩
      exact ⟨e, he, hkey, by rwa [if_neg (h e he)]⟩

/-! ### Quoting byte by byte -/

/-- Every byte as a backslash, an `x` and two digits. -/
def hexEscape (v : List UInt8) : List UInt8 :=
  v.flatMap fun b => [92, 120, Hex.digit 97 (b.toNat / 16), Hex.digit 97 (b.toNat % 16)]

/-- The bytes before the closing quote. -/
def hexUnescape : List UInt8 → Option (List UInt8)
  | [34] => some []
  | 92 :: 120 :: p :: q :: text =>
    match Hex.value p, Hex.value q with
    | some a, some b => (hexUnescape text).map (UInt8.ofNat (a * 16 + b) :: ·)
    | _, _ => none
  | _ => none

/-- The escapes have no newline. -/
theorem newline_not_mem_hexEscape (v : List UInt8) : 10 ∉ hexEscape v := by
  have hdigit : ∀ d < 16, (10 : UInt8) ≠ Hex.digit 97 d := by decide
  intro h
  obtain ⟨b, -, hb⟩ := List.mem_flatMap.mp h
  obtain ⟨hhigh, hlow⟩ := Hex.halves_lt b
  simp [hdigit _ hhigh, hdigit _ hlow] at hb

/-- The escapes are read back. -/
theorem hexUnescape_hexEscape (v : List UInt8) : hexUnescape (hexEscape v ++ [34]) = some v := by
  induction v with
  | nil => rfl
  | cons b v ih =>
    obtain ⟨hhigh, hlow⟩ := Hex.halves_lt b
    have hcons : hexEscape (b :: v) ++ [34] = 92 :: 120 :: Hex.digit 97 (b.toNat / 16) ::
        Hex.digit 97 (b.toNat % 16) :: (hexEscape v ++ [34]) := rfl
    rw [hcons, hexUnescape, Hex.value_digit (.inr rfl) hhigh, Hex.value_digit (.inr rfl) hlow, ih]
    simp only [Option.map_some, Hex.ofNat_halves]

/-- A quoting that `strconv.Unquote` reads as well. -/
def hexStrconv : Strconv where
  escape := hexEscape
  unquote
    | 34 :: text => hexUnescape text
    | _ => none
  escape_nil := rfl
  newline_not_mem := newline_not_mem_hexEscape
  unquote_quote := hexUnescape_hexEscape

/-- A map with a single empty value. -/
def emptyValue : Entries where
  list := [(⟨[65], by decide, by decide, by decide, by decide⟩, [])]
  nodup := List.nodup_singleton _

/-- The quotes of an empty value are read as the value. -/
theorem not_readsBack_emptyValue : ¬ReadsBack hexStrconv emptyValue := by
  intro h
  have hread : splitStrict hexStrconv (text hexStrconv emptyValue) [65] = some [34, 34] := by
    decide
  obtain ⟨e, he, -, hvalue⟩ := (h _ _).mp hread
  rw [List.mem_singleton.mp he] at hvalue
  cases hvalue

end Hack.SplitStrict
