import Hack.Loop
import Mathlib.Data.List.TakeWhile

/-!
# Splitting a block into tokens

The function `strtok` of the C library keeps a pointer into a block of memory and writes a zero
behind every token that it finds. A pointer is an offset of the block, and an access outside of
the block is a fault. What a call does is determined by the bytes from the pointer on: those
before it are final, and those behind the new pointer are untouched.
-/

namespace Hack.Strtok

/-- The number of bytes before the first one at which a scan stops. A scan that finds none runs
past the end of the block. -/
def span (stop : UInt8 → Bool) : List UInt8 → Option ℕ
  | [] => none
  | byte :: block => if stop byte then some 0 else (span stop block).map (· + 1)

/-- A byte written at an offset. -/
def put (block : List UInt8) (i : ℕ) (byte : UInt8) : Option (List UInt8) :=
  if i < block.length then some (block.set i byte) else none

/-- A block and the pointer that `strtok` keeps. -/
structure Scan where
  block : List UInt8
  save : ℕ

/-- `strtok` from the pointer it keeps on. The token is the offset where it begins, if there is
one. -/
def strtok (delim : List UInt8) (s : Scan) : Option (Scan × Option ℕ) := do
  let skipped ← span (· ∉ delim) (s.block.drop s.save)
  let start := s.save + skipped
  let first ← s.block[start]?
  if first = 0 then some (⟨s.block, start⟩, none)
  else
    let length ← span (fun b => b = 0 ∨ b ∈ delim) (s.block.drop start)
    let stop := start + length
    let last ← s.block[stop]?
    if last = 0 then some (⟨s.block, stop⟩, some start)
    else
      let block ← put s.block stop 0
      some (⟨block, stop + 1⟩, some start)

/-- A scan that has come to the end of the first part of a block. -/
def Scan.between (front text : List UInt8) : Scan := ⟨front ++ text, front.length⟩

variable {delim text front s t more : List UInt8} {c : UInt8} {stop : UInt8 → Bool} {b : UInt8}

/-- The delimiters before a token. -/
def separators (delim text : List UInt8) : List UInt8 := text.takeWhile (· ∈ delim)

/-- The first token of a text, empty if there is none. -/
def token (delim text : List UInt8) : List UInt8 :=
  (text.dropWhile (· ∈ delim)).takeWhile fun b => b ≠ 0 ∧ b ∉ delim

/-- What follows the first token, from the byte on that ends it. -/
def behind (delim text : List UInt8) : List UInt8 :=
  (text.dropWhile (· ∈ delim)).dropWhile fun b => b ≠ 0 ∧ b ∉ delim

/-- Where the search for the next token begins: behind the delimiter that ends the first one, or
at the end of the string. -/
def next (delim text : List UInt8) : List UInt8 :=
  match behind delim text with
  | [] => []
  | c :: more => if c = 0 then c :: more else more

/-- What the block has before that place afterwards: a zero ends the token. -/
def consumed (delim text : List UInt8) : List UInt8 :=
  separators delim text ++ token delim text ++
    if (behind delim text).head? = some 0 then [] else [0]

/-- A text is made of these parts. -/
theorem separators_token_behind (delim text : List UInt8) :
    separators delim text ++ (token delim text ++ behind delim text) = text := by
  rw [token, behind, List.takeWhile_append_dropWhile, separators, List.takeWhile_append_dropWhile]

/-- A scan counts the bytes before the first one that stops it. -/
theorem span_eq (hc : stop c = true) (s more : List UInt8) :
    span stop (s ++ c :: more) = some (s.takeWhile (!stop ·)).length := by
  induction s with
  | nil => simp [span, hc]
  | cons b s ih =>
    by_cases hb : stop b = true
    · simp [span, hb]
    · simp [span, hb, ih]

/-- A scan stops behind bytes that do not stop it. -/
theorem span_append (hs : ∀ b ∈ s, stop b = false) (hc : stop c = true) (more : List UInt8) :
    span stop (s ++ c :: more) = some s.length := by
  have hall : s.takeWhile (!stop ·) = s := List.takeWhile_eq_self_iff.mpr fun b hb => by
    rw [hs b hb]
    rfl
  rw [span_eq hc, hall]

/-- A byte is written over the one behind others. -/
theorem put_append (front more : List UInt8) (c byte : UInt8) :
    put (front ++ c :: more) front.length byte = some (front ++ byte :: more) := by
  rw [put, if_pos (by simp), List.set_append_right _ _ (Nat.le_refl _), Nat.sub_self,
    List.set_cons_zero]

/-- The bytes of a token. -/
theorem mem_token (hb : b ∈ token delim text) : b ≠ 0 ∧ b ∉ delim := by
  have h := List.mem_takeWhile_imp hb
  exact of_decide_eq_true h

/-- The bytes before a token. -/
theorem mem_separators (hb : b ∈ separators delim text) : b ∈ delim := by
  have h := List.mem_takeWhile_imp hb
  exact of_decide_eq_true h

/-- A string ends behind its first token. -/
theorem zero_mem_behind (hdelim : 0 ∉ delim) (htext : 0 ∈ text) : 0 ∈ behind delim text := by
  rw [← separators_token_behind delim text, List.mem_append, List.mem_append] at htext
  rcases htext with h | h | h
  · exact absurd (mem_separators h) hdelim
  · exact absurd rfl (mem_token h).1
  · exact h

/-- The first token is followed by a delimiter or by the end of the string, and by that end if it
is empty. -/
theorem exists_behind (hdelim : 0 ∉ delim) (htext : 0 ∈ text) :
    ∃ c more, behind delim text = c :: more ∧ (c = 0 ∨ c ∈ delim) ∧
      (token delim text = [] → c = 0) := by
  obtain ⟨c, more, hbehind⟩ :=
    List.exists_cons_of_ne_nil (List.ne_nil_of_mem (zero_mem_behind hdelim htext))
  have hend : c = 0 ∨ c ∈ delim := by
    have h := List.head?_dropWhile_not (fun b => decide (b ≠ 0 ∧ b ∉ delim))
      (text.dropWhile (· ∈ delim))
    rw [← behind, hbehind] at h
    simpa [or_iff_not_imp_left] using h
  refine ⟨c, more, hbehind, hend, fun htoken => hend.resolve_right ?_⟩
  -- Without a token the separators end there.
  have hskipped : text.dropWhile (· ∈ delim) = c :: more := by
    rw [← hbehind, ← List.nil_append (behind delim text), ← htoken]
    exact List.takeWhile_append_dropWhile.symm
  have h := List.head?_dropWhile_not (fun b => decide (b ∈ delim)) text
  rw [hskipped] at h
  simpa using h

section Parts

variable (hs : ∀ b ∈ s, b ∈ delim) (ht : ∀ b ∈ t, b ≠ 0 ∧ b ∉ delim)
include hs ht

/-- The parts of a text that is given by its parts. -/
theorem parts_eq (hc : c = 0 ∨ c ∈ delim) (hne : t ≠ [] ∨ c = 0) (hdelim : 0 ∉ delim)
    (more : List UInt8) :
    separators delim (s ++ t ++ c :: more) = s ∧ token delim (s ++ t ++ c :: more) = t ∧
      behind delim (s ++ t ++ c :: more) = c :: more := by
  have hseparators : ∀ b ∈ s, decide (b ∈ delim) = true := fun b hb => decide_eq_true (hs b hb)
  have htoken : ∀ b ∈ t, decide (b ≠ 0 ∧ b ∉ delim) = true := fun b hb => decide_eq_true (ht b hb)
  have hend : ¬decide (c ≠ 0 ∧ c ∉ delim) = true := by
    rw [decide_eq_true_eq, not_and_or, not_not, not_not]
    exact hc
  -- The separators end at the token, or at the end of the string if there is none.
  have hfirst : ∃ d rest, t ++ c :: more = d :: rest ∧ ¬decide (d ∈ delim) = true := by
    cases t with
    | nil =>
      refine ⟨c, more, rfl, ?_⟩
      rw [hne.resolve_left (fun h => h rfl), decide_eq_true_eq]
      exact hdelim
    | cons d t =>
      refine ⟨d, t ++ c :: more, rfl, ?_⟩
      rw [decide_eq_true_eq]
      exact (ht d List.mem_cons_self).2
  obtain ⟨d, rest, hd, hdStop⟩ := hfirst
  have hskipped : (s ++ t ++ c :: more).dropWhile (· ∈ delim) = t ++ c :: more := by
    rw [List.append_assoc, List.dropWhile_append_of_pos hseparators, hd,
      List.dropWhile_cons, if_neg hdStop]
  refine ⟨?_, ?_, ?_⟩
  · rw [separators, List.append_assoc, List.takeWhile_append_of_pos hseparators, hd,
      List.takeWhile_cons, if_neg hdStop, List.append_nil]
  · rw [token, hskipped, List.takeWhile_append_of_pos htoken, List.takeWhile_cons, if_neg hend,
      List.append_nil]
  · rw [behind, hskipped, List.dropWhile_append_of_pos htoken, List.dropWhile_cons, if_neg hend]

/-- A token that a delimiter ends: where the next search begins, and what is before. -/
theorem next_eq (hne : t ≠ []) (hc : c ∈ delim) (hdelim : 0 ∉ delim) (more : List UInt8) :
    next delim (s ++ t ++ c :: more) = more ∧
      consumed delim (s ++ t ++ c :: more) = s ++ t ++ [0] := by
  obtain ⟨hseparators, htoken, hbehind⟩ := parts_eq hs ht (.inr hc) (.inl hne) hdelim more
  have hzero : c ≠ 0 := fun h => hdelim (h ▸ hc)
  rw [next, consumed, hbehind, hseparators, htoken]
  simp [hzero]

/-- A token that the end of the string ends: the pointer stays there. -/
theorem next_end (hdelim : 0 ∉ delim) (more : List UInt8) :
    token delim (s ++ t ++ 0 :: more) = t ∧ consumed delim (s ++ t ++ 0 :: more) = s ++ t ∧
      next delim (s ++ t ++ 0 :: more) = 0 :: more := by
  obtain ⟨hseparators, htoken, hbehind⟩ := parts_eq hs ht (.inl rfl) (.inr rfl) hdelim more
  rw [consumed, next, hbehind, hseparators, htoken]
  simp

end Parts

/-- Delimiters before the end of the string are no token. -/
theorem no_token (hs : ∀ b ∈ s, b ∈ delim) (hdelim : 0 ∉ delim) (more : List UInt8) :
    token delim (s ++ 0 :: more) = [] ∧ next delim (s ++ 0 :: more) = 0 :: more := by
  obtain ⟨htoken, -, hnext⟩ := next_end hs (t := []) (by simp) hdelim more
  rw [List.append_nil] at htoken hnext
  exact ⟨htoken, hnext⟩

/-- The end of a string has no token. -/
theorem parts_end (hdelim : 0 ∉ delim) (more : List UInt8) :
    token delim (0 :: more) = [] ∧ consumed delim (0 :: more) = [] ∧
      next delim (0 :: more) = 0 :: more :=
  next_end (s := []) (t := []) (by simp) (by simp) hdelim more

/-- What is before and behind the new place together: the token has become a string. -/
theorem consumed_append_next (hdelim : 0 ∉ delim) (htext : 0 ∈ text) :
    consumed delim text ++ next delim text =
      separators delim text ++ (token delim text ++ 0 :: (behind delim text).tail) := by
  obtain ⟨c, more, hbehind, -, -⟩ := exists_behind hdelim htext
  rw [consumed, next, hbehind]
  by_cases hc : c = 0
  · simp [hc]
  · simp [hc]

/-- Without a token nothing is written. -/
theorem consumed_append_next_of_none (hdelim : 0 ∉ delim) (htext : 0 ∈ text)
    (htoken : token delim text = []) : consumed delim text ++ next delim text = text := by
  obtain ⟨c, more, hbehind, -, hzero⟩ := exists_behind hdelim htext
  have hparts := separators_token_behind delim text
  rw [hbehind, hzero htoken] at hparts
  rw [consumed_append_next hdelim htext, hbehind, List.tail_cons, hparts]

/-- The string does not end before the new place. -/
theorem zero_mem_next (hdelim : 0 ∉ delim) (htext : 0 ∈ text) : 0 ∈ next delim text := by
  have hmem := zero_mem_behind hdelim htext
  obtain ⟨c, more, hbehind, -, -⟩ := exists_behind hdelim htext
  rw [next, hbehind]
  rw [hbehind] at hmem
  by_cases hc : c = 0
  · simp [hc]
  · have hmore := (List.mem_cons.mp hmem).resolve_left (Ne.symm hc)
    simpa [hc] using hmore

/-- `strtok` at delimiters and the end of the string. -/
theorem strtok_none (hs : ∀ b ∈ s, b ∈ delim) (hdelim : 0 ∉ delim) (front more : List UInt8) :
    strtok delim (.between front (s ++ 0 :: more)) =
      some (.between (front ++ s) (0 :: more), none) := by
  have hskip : span (· ∉ delim) (s ++ 0 :: more) = some s.length :=
    span_append (by simpa using hs) (by simpa using hdelim) more
  have hfirst : (front ++ (s ++ 0 :: more))[front.length + s.length]? = some 0 := by
    simp
  simp only [strtok, Scan.between, List.drop_left, hskip, hfirst, Option.bind_eq_bind,
    Option.bind_some, if_pos, List.append_assoc, List.length_append]

/-- `strtok` at a token. -/
theorem strtok_some (hs : ∀ b ∈ s, b ∈ delim) (ht : ∀ b ∈ t, b ≠ 0 ∧ b ∉ delim) (hne : t ≠ [])
    (hc : c = 0 ∨ c ∈ delim) (front more : List UInt8) :
    strtok delim (.between front (s ++ t ++ c :: more)) =
      some (if c = 0 then .between (front ++ s ++ t) (0 :: more)
        else .between (front ++ s ++ t ++ [0]) more, some (front ++ s).length) := by
  obtain ⟨d, t, rfl⟩ := List.exists_cons_of_ne_nil hne
  obtain ⟨hd, hdelim⟩ := ht d List.mem_cons_self
  have hskip : span (· ∉ delim) (s ++ d :: t ++ c :: more) = some s.length := by
    rw [List.append_assoc]
    exact span_append (by simpa using hs) (by simpa using hdelim) _
  have hfirst : (front ++ (s ++ d :: t ++ c :: more))[front.length + s.length]? = some d := by
    simp
  have hstart : (front ++ (s ++ d :: t ++ c :: more)).drop (front.length + s.length) =
      d :: t ++ c :: more := by
    simp
  have hlength : span (fun b => b = 0 ∨ b ∈ delim) (d :: t ++ c :: more) =
      some (d :: t).length :=
    span_append (fun b hb => decide_eq_false (not_or.mpr (ht b hb))) (decide_eq_true hc) more
  have hblock : front ++ (s ++ d :: t ++ c :: more) = front ++ s ++ d :: t ++ c :: more := by
    rw [List.append_assoc, List.append_assoc, List.append_assoc]
  have hstop : front.length + s.length + (d :: t).length = (front ++ s ++ d :: t).length := by
    rw [List.length_append, List.length_append]
  have hlast : (front ++ s ++ d :: t ++ c :: more)[(front ++ s ++ d :: t).length]? = some c := by
    rw [List.getElem?_append_right (Nat.le_refl _), Nat.sub_self, List.getElem?_cons_zero]
  simp only [strtok, Scan.between, List.drop_left, hskip, hfirst, Option.bind_eq_bind,
    Option.bind_some, if_neg hd, hstart, hlength]
  rw [hblock, hstop, hlast, Option.bind_some]
  by_cases hzero : c = 0
  · subst hzero
    rw [if_pos rfl, if_pos rfl, ← List.length_append]
  · rw [if_neg hzero, if_neg hzero, put_append, Option.bind_some]
    simp [Nat.add_assoc]

/-- What `strtok` does. -/
theorem strtok_between (hdelim : 0 ∉ delim) (htext : 0 ∈ text) (front : List UInt8) :
    strtok delim (.between front text) =
      some (.between (front ++ consumed delim text) (next delim text),
        if token delim text = [] then none
        else some (front ++ separators delim text).length) := by
  obtain ⟨c, more, hbehind, hc, hnone⟩ := exists_behind hdelim htext
  have hparts := separators_token_behind delim text
  rw [hbehind] at hparts
  have hs : ∀ b ∈ separators delim text, b ∈ delim := fun b hb => mem_separators hb
  by_cases htoken : token delim text = []
  · have hzero : c = 0 := hnone htoken
    rw [if_pos htoken, consumed, next, hbehind, htoken, hzero]
    rw [htoken, hzero, List.nil_append] at hparts
    have hrun := strtok_none hs hdelim front more
    rw [hparts] at hrun
    rw [hrun]
    simp
  · rw [if_neg htoken, consumed, next, hbehind]
    have hrun := strtok_some hs (fun b hb => mem_token hb) htoken hc front more
    rw [List.append_assoc, hparts] at hrun
    rw [hrun]
    by_cases hzero : c = 0
    · simp [hzero]
    · simp [hzero]

/-! ### The tokens of a string -/

/-- The maximal runs of bytes that are no separators. -/
def runs (separator : UInt8 → Bool) (s : List UInt8) : List (List UInt8) :=
  (s.splitOnP separator).filter (· ≠ [])

/-- The string at the front of a text. -/
def str (text : List UInt8) : List UInt8 := text.takeWhile (· ≠ 0)

/-- What a scan has not searched yet. -/
def Scan.rest (scan : Scan) : List UInt8 := scan.block.drop scan.save

variable {separator : UInt8 → Bool} {scan : Scan} {σ : Type*}

/-- A separator cuts a string in two. -/
theorem runs_append_cons (hc : separator c = true) (s t : List UInt8) :
    runs separator (s ++ c :: t) = runs separator s ++ runs separator t := by
  rw [runs, List.splitOnP_append_cons s t hc, List.filter_append]
  rfl

/-- A string without separators is a single run. -/
theorem runs_eq_singleton (ht : ∀ b ∈ t, separator b = false) (hne : t ≠ []) :
    runs separator t = [t] := by
  rw [runs, List.splitOnP_eq_singleton ht, List.filter_cons, if_pos (decide_eq_true hne),
    List.filter_nil]

/-- Separators belong to no run. -/
theorem runs_append (hs : ∀ b ∈ s, separator b = true) (t : List UInt8) :
    runs separator (s ++ t) = runs separator t := by
  induction s with
  | nil => rfl
  | cons b s ih =>
    have hb := runs_append_cons (hs b List.mem_cons_self) [] (s ++ t)
    rw [List.nil_append] at hb
    rw [List.cons_append, hb, ih fun b hb => hs b (List.mem_cons_of_mem _ hb)]
    rfl

/-- A string is cut at each of its separators. -/
theorem length_splitOnP (separator : UInt8 → Bool) (s : List UInt8) :
    (s.splitOnP separator).length = s.countP separator + 1 := by
  induction s with
  | nil => rfl
  | cons b s ih =>
    rw [List.splitOnP_cons_eq_if_modifyHead, List.countP_cons]
    split_ifs
    · rw [List.length_cons, ih]
    · rw [List.length_modifyHead, ih, Nat.add_zero]

/-- There are at most as many runs as separators exactly if two of these are neighbours, or one of
them is at an end. -/
theorem length_runs_le_iff (separator : UInt8 → Bool) (s : List UInt8) :
    (runs separator s).length ≤ s.countP separator ↔ [] ∈ s.splitOnP separator := by
  rw [← Nat.lt_succ_iff, Nat.succ_eq_add_one, ← length_splitOnP, runs,
    List.length_filter_lt_length_iff_exists]
  simp

/-- A run is made of bytes of the string. -/
theorem mem_of_mem_runs (ht : t ∈ runs separator s) (hb : b ∈ t) : b ∈ s := by
  rw [runs, List.mem_filter] at ht
  obtain ⟨ht, -⟩ := ht
  induction s generalizing t with
  | nil =>
    rw [List.splitOnP_nil, List.mem_singleton] at ht
    rwa [ht] at hb
  | cons c s ih =>
    rw [List.splitOnP_cons_eq_if_modifyHead] at ht
    split_ifs at ht
    · rcases List.mem_cons.mp ht with rfl | ht
      · cases hb
      · exact List.mem_cons_of_mem c (ih hb ht)
    · obtain ⟨u, us, hu⟩ := List.exists_cons_of_ne_nil (List.splitOnP_ne_nil separator s)
      rw [hu, List.modifyHead_cons] at ht
      rw [hu] at ih
      rcases List.mem_cons.mp ht with rfl | ht
      · rcases List.mem_cons.mp hb with rfl | hb
        · exact List.mem_cons_self
        · exact List.mem_cons_of_mem c (ih hb List.mem_cons_self)
      · exact List.mem_cons_of_mem c (ih hb (List.mem_cons_of_mem u ht))

/-- Bytes before the zero belong to the string. -/
theorem str_append (hs : 0 ∉ s) (text : List UInt8) : str (s ++ text) = s ++ str text := by
  apply List.takeWhile_append_of_pos
  intro b hb
  exact decide_eq_true fun h => hs (h ▸ hb)

/-- The zero ends the string. -/
theorem str_cons_zero (more : List UInt8) : str (0 :: more) = [] := rfl

/-- A block with a string in it. -/
theorem str_append_zero (hs : 0 ∉ s) (more : List UInt8) : str (s ++ 0 :: more) = s := by
  rw [str_append hs, str_cons_zero, List.append_nil]

/-- The tokens of a string are the first one and those of the rest. -/
theorem runs_str (hdelim : 0 ∉ delim) (htext : 0 ∈ text) : runs (· ∈ delim) (str text) =
      if token delim text = [] then []
      else token delim text :: runs (· ∈ delim) (str (next delim text)) := by
  obtain ⟨c, more, hbehind, hc, hnone⟩ := exists_behind hdelim htext
  have hseparators : 0 ∉ separators delim text := fun h => hdelim (mem_separators h)
  have htoken : 0 ∉ token delim text := fun h => (mem_token h).1 rfl
  have hruns : runs (· ∈ delim) (str text) =
      runs (· ∈ delim) (token delim text ++ str (c :: more)) := by
    have hskip : ∀ b ∈ separators delim text, decide (b ∈ delim) = true :=
      fun b hb => decide_eq_true (mem_separators hb)
    rw [← str_append htoken, ← hbehind, ← runs_append hskip (str (token delim text ++ _)),
      ← str_append hseparators, separators_token_behind]
  have hfree : ∀ b ∈ token delim text, decide (b ∈ delim) = false :=
    fun b hb => decide_eq_false (mem_token hb).2
  rw [hruns, next, hbehind]
  split_ifs with hempty
  · rw [hempty, hnone hempty]
    rfl
  · by_cases hzero : c = 0
    · rw [hzero, str_cons_zero, List.append_nil, runs_eq_singleton hfree hempty]
      rfl
    · have hcut : str (c :: more) = c :: str more :=
        List.takeWhile_cons_of_pos (by simpa using hzero)
      have hdelimiter : decide (c ∈ delim) = true := decide_eq_true (hc.resolve_left hzero)
      rw [hcut, runs_append_cons hdelimiter, runs_eq_singleton hfree hempty]
      simp [hzero]

/-- A scan is between what it has searched and the rest. -/
theorem Scan.eq_between (hrest : 0 ∈ scan.rest) :
    scan = .between (scan.block.take scan.save) scan.rest := by
  have hlength : scan.save < scan.block.length := by
    by_contra h
    rw [Scan.rest, List.drop_eq_nil_of_le (Nat.le_of_not_lt h)] at hrest
    exact List.not_mem_nil hrest
  rw [Scan.between, Scan.rest, List.take_append_drop, List.length_take_of_le hlength.le]

@[simp]
theorem Scan.rest_between (front text : List UInt8) : (Scan.between front text).rest = text :=
  List.drop_left

/-- `strtok` at a string without a token. -/
theorem strtok_of_runs_nil (hdelim : 0 ∉ delim) (hrest : 0 ∈ scan.rest)
    (hruns : runs (· ∈ delim) (str scan.rest) = []) :
    ∃ scan', strtok delim scan = some (scan', none) := by
  rw [runs_str hdelim hrest] at hruns
  split_ifs at hruns with htoken
  rw [Scan.eq_between hrest, strtok_between hdelim hrest, if_pos htoken]
  exact ⟨_, rfl⟩

/-- `strtok` at a string with tokens: the first one has become a string, and the others follow. -/
theorem strtok_of_runs_cons (hdelim : 0 ∉ delim) (hrest : 0 ∈ scan.rest) {ts : List (List UInt8)}
    (hruns : runs (· ∈ delim) (str scan.rest) = t :: ts) :
    ∃ scan' start more, strtok delim scan = some (scan', some start) ∧ 0 ∈ scan'.rest ∧
      runs (· ∈ delim) (str scan'.rest) = ts ∧ 0 ∉ t ∧ scan'.block.drop start = t ++ 0 :: more := by
  rw [runs_str hdelim hrest] at hruns
  split_ifs at hruns with htoken
  obtain ⟨rfl, rfl⟩ := List.cons.inj hruns
  have hstrtok := strtok_between hdelim hrest (scan.block.take scan.save)
  rw [← Scan.eq_between hrest, if_neg htoken] at hstrtok
  refine ⟨_, _, (behind delim scan.rest).tail, hstrtok, ?_, ?_, ?_, ?_⟩
  · rw [Scan.rest_between]
    exact zero_mem_next hdelim hrest
  · rw [Scan.rest_between]
  · exact fun h => (mem_token h).1 rfl
  · rw [Scan.between, List.append_assoc, consumed_append_next hdelim hrest, ← List.append_assoc,
      List.drop_left]

/-! ### Loops over the tokens -/

/-- A turn of a loop that does something with every token that `strtok` finds. -/
def tokenTurn {σ : Type*} (delim : List UInt8) (f : σ → List UInt8 → Option σ) :
    Scan × σ → Option (Turn (Scan × σ) σ)
  | (scan, s) =>
    (strtok delim scan).bind fun (scan', start) =>
      match start with
      | none => some (.leave s)
      | some start => (f s (scan'.block.drop start)).map fun s' => .next (scan', s')

/-- The loop goes through the tokens of the string in their order. -/
theorem returns_tokenTurn_iff (hdelim : 0 ∉ delim) {f g : σ → List UInt8 → Option σ}
    (hf : ∀ s t more, 0 ∉ t → f s (t ++ 0 :: more) = g s t) (hrest : 0 ∈ scan.rest) {s r : σ} :
    Loop.Returns (tokenTurn delim f) (scan, s) r ↔
      (runs (· ∈ delim) (str scan.rest)).foldlM g s = some r := by
  generalize hruns : runs (· ∈ delim) (str scan.rest) = ts
  induction ts generalizing scan s with
  | nil =>
    obtain ⟨scan', hstrtok⟩ := strtok_of_runs_nil hdelim hrest hruns
    have hleave : tokenTurn delim f (scan, s) = some (.leave s) := by
      rw [tokenTurn, hstrtok]
      rfl
    rw [Loop.returns_iff_of_leave hleave, List.foldlM_nil]
    exact (Option.some_inj).symm
  | cons t ts ih =>
    obtain ⟨scan', start, more, hstrtok, hrest', hruns', hzero, htoken⟩ :=
      strtok_of_runs_cons hdelim hrest hruns
    have hturn : tokenTurn delim f (scan, s) = (g s t).map fun s' => .next (scan', s') := by
      rw [tokenTurn, hstrtok]
      simp only [Option.bind_some, htoken, hf s t more hzero]
    rw [List.foldlM_cons]
    cases hg : g s t with
    | none =>
      rw [hg] at hturn
      exact iff_of_false (Loop.not_returns_of_fault hturn) (Option.some_ne_none r).symm
    | some s' =>
      rw [hg] at hturn
      rw [Loop.returns_iff_of_next hturn, ih hrest' hruns']
      rfl

/-- The loop over the tokens from the front of a block. -/
theorem returns_tokenTurn_front_iff (hdelim : 0 ∉ delim) {f g : σ → List UInt8 → Option σ}
    (hf : ∀ s t more, 0 ∉ t → f s (t ++ 0 :: more) = g s t) (hs : 0 ∉ s) (more : List UInt8)
    {a r : σ} : Loop.Returns (tokenTurn delim f) (⟨s ++ 0 :: more, 0⟩, a) r ↔
      (runs (· ∈ delim) s).foldlM g a = some r := by
  have hrest : 0 ∈ (Scan.mk (s ++ 0 :: more) 0).rest :=
    List.mem_append_right _ List.mem_cons_self
  rw [returns_tokenTurn_iff hdelim hf hrest, Scan.rest, List.drop_zero, str_append_zero hs]

/-- A loop that moves its pointer behind the next delimiter and counts it goes through all of them;
the part behind the last one is left to the loop. -/
theorem returns_iff_of_delims
    {turn : Option (List UInt8) × ℕ → Option (Turn (Option (List UInt8) × ℕ) ℕ)} {delim : UInt8}
    {n r last : ℕ} {rest : List UInt8}
    (hnext : ∀ line more n, 0 ∉ line → 0 ∉ more → delim ∉ line →
      turn (some (line ++ delim :: more ++ 0 :: rest), n) =
        some (.next (some (more ++ 0 :: rest), n + 1)))
    (hlast : ∀ line n, 0 ∉ line → delim ∉ line →
      (Loop.Returns turn (some (line ++ 0 :: rest), n) r ↔ n + last = r))
    (hs : 0 ∉ s) :
    Loop.Returns turn (some (s ++ 0 :: rest), n) r ↔ n + (s.count delim + last) = r := by
  induction hcount : s.count delim generalizing s n with
  | zero => rw [hlast s n hs (List.count_eq_zero.mp hcount), Nat.zero_add]
  | succ k ih =>
    have hmem : delim ∈ s := List.count_pos_iff.mp (by omega)
    obtain ⟨line, more, rfl, hline⟩ := List.eq_append_cons_of_mem hmem
    rw [List.mem_append, List.mem_cons, not_or, not_or] at hs
    obtain ⟨hzero, -, hzero'⟩ := hs
    rw [List.count_append, List.count_cons_self, List.count_eq_zero.mpr hline] at hcount
    rw [Loop.returns_iff_of_next (hnext line more n hzero hzero' hline), ih hzero' (by omega)]
    omega

end Hack.Strtok
