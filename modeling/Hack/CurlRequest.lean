import Hack.CString
import Mathlib.Algebra.Group.Nat.Defs

/-!
# The body of an HTTP response

This file embeds `req_write_callback` and `request_get` of `curl-request/req.c`. The library hands
over the body of a response in chunks, one call of the callback for each of them. The callback
copies every chunk to the front of the buffer of the caller, so that a chunk overwrites those
before it.
-/

namespace Hack.CurlRequest

open CString

/-- A chunk of a response, as the library hands it over. -/
structure Chunk where
  data : List UInt8
  size : ℕ
  nmemb : ℕ
  length_data : data.length = size * nmemb
  size_lt : size * nmemb < 2 ^ 64

/-- `req_write_callback`: what it returns, and the buffer. A copy out of bounds is a fault. -/
def reqWriteCallback (data : List UInt8) (size nmemb : ℕ) (clientp : List UInt8) :
    Option (ℕ × List UInt8) :=
  let realsize := size * nmemb % 2 ^ 64
  if realsize ≤ data.length ∧ realsize ≤ clientp.length then
    some (realsize, data.take realsize ++ clientp.drop realsize)
  else none

/-- A transfer: the chunks that arrive, and the text of the error that ends it, if there is one. -/
structure Transfer where
  chunks : List Chunk
  error : Option String

/-- The calls during `curl_easy_perform`. A callback that does not take its whole chunk ends the
transfer. -/
def callbacks : List Chunk → List UInt8 → Option (List UInt8)
  | [], clientp => some clientp
  | c :: chunks, clientp =>
    (reqWriteCallback c.data c.size c.nmemb clientp).bind fun (taken, clientp') =>
      if taken = c.size * c.nmemb then callbacks chunks clientp' else some clientp'

/-- What `request_get` returns, leaves in the buffer and prints. -/
structure Response where
  status : ℤ
  result : List UInt8
  printed : String

/-- `"curl init failed"`. -/
def initFailed : List UInt8 := "curl init failed".toList.map Char.toUInt8 ++ [0]

/-- `request_get`, for a transfer unless the library cannot be initialised. -/
def requestGet (transfer : Option Transfer) (result : List UInt8) : Option Response :=
  match transfer with
  | some transfer => (callbacks transfer.chunks result).map fun result =>
    ⟨0, result,
      match transfer.error with
      | none => ""
      | some error => "curl_easy_perform() failed: " ++ error ++ "\n"⟩
  | none => (strcpy result initFailed).map fun result => ⟨-1, result, ""⟩

/-- The body that arrives in chunks. -/
def body (chunks : List Chunk) : List UInt8 := chunks.flatMap Chunk.data

/-- Whatever a buffer with room for the body held before, it holds the body afterwards, with what
it held behind it. -/
def HoldsBody (chunks : List Chunk) : Prop :=
  ∀ result : List UInt8, (body chunks).length ≤ result.length →
    requestGet (some ⟨chunks, none⟩) result =
      some ⟨0, body chunks ++ result.drop (body chunks).length, ""⟩

variable {c : Chunk} {chunks : List Chunk} {clientp clientp' : List UInt8} {i : ℕ}

theorem body_cons (c : Chunk) (chunks : List Chunk) : body (c :: chunks) = c.data ++ body chunks :=
  List.flatMap_cons

/-- A chunk is copied to the front if it fits. -/
theorem callbacks_cons (c : Chunk) (chunks : List Chunk) (clientp : List UInt8) :
    callbacks (c :: chunks) clientp =
      if c.data.length ≤ clientp.length then
        callbacks chunks (c.data ++ clientp.drop c.data.length)
      else none := by
  have hsize : c.size * c.nmemb % 2 ^ 64 = c.data.length := by
    rw [Nat.mod_eq_of_lt c.size_lt, c.length_data]
  have hcall : reqWriteCallback c.data c.size c.nmemb clientp =
      if c.data.length ≤ clientp.length then
        some (c.data.length, c.data ++ clientp.drop c.data.length)
      else none := by
    simp only [reqWriteCallback, hsize, Nat.le_refl, true_and, List.take_length]
  rw [callbacks, hcall]
  split_ifs
  · rw [Option.bind_some]
    exact if_pos c.length_data
  · rfl

/-- Chunks without data do nothing. -/
theorem callbacks_filter (chunks : List Chunk) (clientp : List UInt8) :
    callbacks (chunks.filter (·.data ≠ [])) clientp = callbacks chunks clientp := by
  induction chunks generalizing clientp with
  | nil => rfl
  | cons c chunks ih =>
    by_cases hdata : c.data = []
    · rw [List.filter_cons_of_neg (by simpa using hdata), ih, callbacks_cons, hdata]
      simp
    · rw [List.filter_cons_of_pos (by simpa using hdata), callbacks_cons, callbacks_cons]
      simp only [ih]

/-- They are no part of the body either. -/
theorem body_filter (chunks : List Chunk) : body (chunks.filter (·.data ≠ [])) = body chunks := by
  induction chunks with
  | nil => rfl
  | cons c chunks ih =>
    by_cases hdata : c.data = []
    · rw [List.filter_cons_of_neg (by simpa using hdata), ih, body_cons, hdata, List.nil_append]
    · rw [List.filter_cons_of_pos (by simpa using hdata), body_cons, ih, body_cons]

/-- A byte behind all chunks is not written. -/
theorem getElem?_of_callbacks (hbehind : ∀ c ∈ chunks, c.data.length ≤ i)
    (hcalls : callbacks chunks clientp = some clientp') : clientp'[i]? = clientp[i]? := by
  induction chunks generalizing clientp with
  | nil =>
    cases hcalls
    rfl
  | cons c chunks ih =>
    rw [List.forall_mem_cons] at hbehind
    rw [callbacks_cons] at hcalls
    split_ifs at hcalls
    rw [ih hbehind.2 hcalls, List.getElem?_append_right hbehind.1, List.getElem?_drop,
      Nat.add_sub_cancel' hbehind.1]

/-- A chunk is part of the body. -/
theorem length_le_of_mem (hc : c ∈ chunks) : c.data.length ≤ (body chunks).length := by
  induction chunks with
  | nil => cases hc
  | cons d chunks ih =>
    rw [body_cons, List.length_append]
    rcases List.mem_cons.mp hc with rfl | hc
    · exact Nat.le_add_right _ _
    · exact Nat.le_trans (ih hc) (Nat.le_add_left _ _)

/-- With two chunks that have data, none of them reaches the end of the body. -/
theorem length_lt_of_mem {d : Chunk} (hc : c.data ≠ []) (hd : d.data ≠ []) {e : Chunk}
    (he : e ∈ c :: d :: chunks) : e.data.length < (body (c :: d :: chunks)).length := by
  have hcPos := List.length_pos_of_ne_nil hc
  have hdPos := List.length_pos_of_ne_nil hd
  rw [body_cons, List.length_append]
  rcases List.mem_cons.mp he with rfl | he
  · have hle := length_le_of_mem (List.mem_cons_self (a := d) (l := chunks))
    omega
  · have hle := length_le_of_mem he
    omega

/-- The last byte of the body is not written if no chunk reaches it. -/
theorem exists_callbacks_ne (hne : body chunks ≠ [])
    (hlt : ∀ c ∈ chunks, c.data.length < (body chunks).length) :
    ∃ result : List UInt8, (body chunks).length ≤ result.length ∧
      callbacks chunks result ≠ some (body chunks ++ result.drop (body chunks).length) := by
  have hpos := List.length_pos_of_ne_nil hne
  have hlast : (body chunks).length - 1 < (body chunks).length := by omega
  have hother (a : UInt8) : ∃ b, b ≠ a := by
    by_cases ha : a = 0
    · exact ⟨1, by rw [ha]; decide⟩
    · exact ⟨0, Ne.symm ha⟩
  obtain ⟨b, hb⟩ := hother (body chunks)[(body chunks).length - 1]
  refine ⟨List.replicate (body chunks).length b, (List.length_replicate).ge, fun hcalls => hb ?_⟩
  have hkept := getElem?_of_callbacks (fun c hc => Nat.le_sub_one_of_lt (hlt c hc)) hcalls
  rw [List.getElem?_append_left hlast, List.getElem?_eq_getElem hlast,
    List.getElem?_replicate_of_lt hlast] at hkept
  exact (Option.some_inj.mp hkept).symm

/-- The buffer holds the body exactly if at most one of its chunks has data. -/
theorem holdsBody_iff (chunks : List Chunk) :
    HoldsBody chunks ↔ (chunks.filter (·.data ≠ [])).length ≤ 1 := by
  have hcallbacks : HoldsBody chunks ↔ ∀ result : List UInt8, (body chunks).length ≤ result.length →
        callbacks chunks result = some (body chunks ++ result.drop (body chunks).length) := by
    simp [HoldsBody, requestGet]
  have hdata : ∀ c ∈ chunks.filter (·.data ≠ []), c.data ≠ [] :=
    fun c hc => of_decide_eq_true (List.mem_filter.mp hc).2
  simp only [hcallbacks, ← body_filter chunks, ← callbacks_filter chunks]
  generalize chunks.filter (·.data ≠ []) = filled at hdata
  match filled with
  | [] => exact iff_of_true (fun result _ => rfl) (Nat.zero_le _)
  | [c] =>
    refine iff_of_true (fun result hfits => ?_) (Nat.le_refl _)
    rw [body_cons, List.length_append] at hfits
    rw [callbacks_cons, if_pos (by omega)]
    simp [callbacks, body]
  | c :: d :: filled =>
    refine iff_of_false (fun h => ?_) (by simp)
    have hc := hdata c (by simp)
    have hd := hdata d (by simp)
    have hbody : body (c :: d :: filled) ≠ [] := by simp [body_cons, hc]
    obtain ⟨result, hfits, hne⟩ :=
      exists_callbacks_ne hbody fun e he => length_lt_of_mem hc hd he
    exact hne (h result hfits)

/-- A chunk of single bytes. -/
def Chunk.ofBytes (data : List UInt8) (h : data.length < 2 ^ 64) : Chunk where
  data := data
  size := 1
  nmemb := data.length
  length_data := (Nat.one_mul _).symm
  size_lt := by rwa [Nat.one_mul]

/-- A body of two bytes in two chunks: the second one overwrites the first. -/
theorem not_holdsBody_two : ¬HoldsBody [.ofBytes [97] (by decide), .ofBytes [98] (by decide)] := by
  intro h
  have hresponse := h [0, 0] (by decide)
  have hresult : requestGet (some ⟨[.ofBytes [97] (by decide), .ofBytes [98] (by decide)], none⟩)
      [0, 0] = some ⟨0, [98, 0], ""⟩ := rfl
  rw [hresult] at hresponse
  simp [body, Chunk.ofBytes] at hresponse

end Hack.CurlRequest
