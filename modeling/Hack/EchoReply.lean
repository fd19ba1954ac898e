import Hack.EchoResponse

/-!
# The replies of the four echo servers

The servers of `sock-select-tcp`, `sock-poll-tcp`, `sock-epoll-tcp`, and `sock-tls-ctx-tcp` build
their replies alike: a cleared buffer gets the words of the server and then, as a string, the
buffer that was read into, which is of the same size. A reply needs room for the words, for what
was read, and for a closing zero.
-/

namespace Hack.EchoReply

open CString

/-- The servers. -/
inductive Server
  | select
  | poll
  | epoll
  | tls
deriving DecidableEq

/-- The size of both buffers: `MAX_BUFF`, or `SIZE` for `poll`. -/
def Server.size : Server → ℕ
  | .select => 1024
  | .poll => 1024
  | .epoll => 1024
  | .tls => 1024

/-- The words before what was read. -/
def Server.words : Server → String
  | .select => "SERVER RESP: "
  | .poll => "SERVER ECHO: "
  | .epoll => "SERVER RESP: "
  | .tls => "SSL SERVER RESP: "

/-- The words as bytes. -/
def Server.greeting (server : Server) : List UInt8 := server.words.toList.map Char.toUInt8

/-- The cleared buffer after bytes were read into it. -/
def Server.received (server : Server) (bytes : List UInt8) : List UInt8 :=
  bytes ++ List.replicate (server.size - bytes.length) 0

/-- The buffer with the reply. An access outside of a buffer is a fault. -/
def Server.reply (server : Server) (bytes : List UInt8) : Option (List UInt8) :=
  (strcat (List.replicate server.size 0) (server.greeting ++ [0])).bind fun wbuff =>
    strcat wbuff (server.received bytes)

variable {bytes : List UInt8} {server : Server}

/-- The words of a server are a string, which leaves room in its buffer. -/
theorem Server.greeting_spec (server : Server) :
    0 ∉ server.greeting ∧ server.greeting.length < server.size := by
  cases server <;> decide

/-- Bytes that leave room in the buffer are followed by a zero. -/
theorem Server.received_of_lt (hroom : bytes.length < server.size) :
    server.received bytes = bytes ++ 0 :: List.replicate (server.size - bytes.length - 1) 0 := by
  rw [Server.received, ← List.replicate_succ, Nat.sub_add_cancel (Nat.sub_pos_of_lt hroom)]

/-- Bytes that fill the buffer are followed by nothing. -/
theorem Server.received_of_le (hfull : server.size ≤ bytes.length) :
    server.received bytes = bytes := by
  rw [Server.received, Nat.sub_eq_zero_of_le hfull, List.replicate_zero, List.append_nil]

/-- The reply to a string that ends within the buffer it was read into. -/
theorem Server.reply_of_received {s rest : List UInt8} (hs : 0 ∉ s)
    (hreceived : server.received bytes = s ++ 0 :: rest) : server.reply bytes =
      if server.greeting.length + s.length < server.size then
        some (server.greeting ++ s ++
          0 :: List.replicate (server.size - server.greeting.length - 1 - s.length) 0)
      else none := by
  obtain ⟨hgreeting, hsize⟩ := server.greeting_spec
  have hfits : s.length ≤ server.size - server.greeting.length - 1 ↔
      server.greeting.length + s.length < server.size := by omega
  rw [Server.reply, strcat_replicate hgreeting hsize, Option.bind_some, hreceived,
    strcat_eq hgreeting hs, List.length_replicate, List.drop_replicate]
  simp only [hfits]

/-- A string that fills the buffer it was read into has no end there. -/
theorem Server.reply_of_full (hbytes : 0 ∉ bytes) (hfull : server.size ≤ bytes.length) :
    server.reply bytes = none := by
  obtain ⟨hgreeting, hsize⟩ := server.greeting_spec
  rw [Server.reply, strcat_replicate hgreeting hsize, Option.bind_some,
    Server.received_of_le hfull, strcat, cstr_eq_none hbytes]
  simp only [Option.bind_none, Option.bind_fun_none]

/-- The reply to bytes without a zero among them. -/
theorem Server.reply_eq (server : Server) (hbytes : 0 ∉ bytes) : server.reply bytes =
      if server.greeting.length + bytes.length < server.size then
        some (server.greeting ++ bytes ++
          0 :: List.replicate (server.size - server.greeting.length - 1 - bytes.length) 0)
      else none := by
  by_cases hroom : bytes.length < server.size
  · exact Server.reply_of_received hbytes (Server.received_of_lt hroom)
  · rw [Server.reply_of_full hbytes (Nat.not_lt.mp hroom), if_neg (by omega)]

/-- The string in the bytes, with the words and a closing zero, fits in the buffer. -/
def Server.Fits (server : Server) (bytes : List UInt8) : Prop :=
  server.greeting.length + (bytes.takeWhile (· ≠ 0)).length < server.size

instance (server : Server) (bytes : List UInt8) : Decidable (server.Fits bytes) :=
  inferInstanceAs (Decidable (_ < _))

/-- A reply is written inside of its buffer exactly when it fits. -/
theorem Server.isSome_reply_iff (server : Server) :
    (server.reply bytes).isSome ↔ server.Fits bytes := by
  by_cases hzero : (0 : UInt8) ∈ bytes
  · obtain ⟨s, rest, rfl, hs⟩ := List.eq_append_cons_of_mem hzero
    have hmem : ∀ byte ∈ s, decide (byte ≠ 0) = true := fun byte hbyte =>
      decide_eq_true fun h => hs (h ▸ hbyte)
    have htake : (s ++ 0 :: rest).takeWhile (· ≠ 0) = s := by
      rw [List.takeWhile_append_of_pos hmem]
      simp
    have hreceived : server.received (s ++ 0 :: rest) = s ++ 0 ::
        (rest ++ List.replicate (server.size - (s ++ 0 :: rest).length) 0) := by
      rw [Server.received, List.append_assoc, List.cons_append]
    rw [Server.reply_of_received hs hreceived, Server.Fits, htake]
    split_ifs with hfits <;> simp [hfits]
  · have htake : bytes.takeWhile (· ≠ 0) = bytes := by
      rw [List.takeWhile_eq_self_iff]
      intro byte hbyte
      simpa using fun h : byte = 0 => hzero (h ▸ hbyte)
    rw [Server.reply_eq server hzero, Server.Fits, htake]
    split_ifs with hfits <;> simp [hfits]

/-- The response of the models of `select` and `epoll` is written when it fits. -/
theorem isSome_wbuff_iff : (EchoResponse.wbuff bytes).isSome ↔ EchoResponse.Fits bytes :=
  Server.select.isSome_reply_iff

/-- The reply is the words of the server, what was read, and a closing zero, all inside of its
buffer and with no access outside of either buffer, exactly when these fit in the buffer. -/
theorem echo_reply_fits_iff (server : Server) (hbytes : 0 ∉ bytes) :
    (∃ rest, server.reply bytes = some (server.greeting ++ bytes ++ 0 :: rest) ∧
        (server.greeting ++ bytes ++ 0 :: rest).length = server.size) ↔
      server.greeting.length + bytes.length < server.size := by
  rw [server.reply_eq hbytes]
  constructor
  · rintro ⟨rest, -, hsize⟩
    rw [List.length_append, List.length_append, List.length_cons] at hsize
    omega
  · intro hfits
    refine ⟨_, if_pos hfits, ?_⟩
    rw [List.length_append, List.length_append, List.length_cons, List.length_replicate]
    omega

/-- The reply of the TLS server to `hi`. -/
theorem echo_reply_fits_iff_hi :
    ∃ rest, Server.tls.reply [104, 105] = some (Server.tls.greeting ++ [104, 105] ++ 0 :: rest) ∧
      (Server.tls.greeting ++ [104, 105] ++ 0 :: rest).length = Server.tls.size :=
  (echo_reply_fits_iff .tls (by decide)).mpr (by decide)

/-- 1011 bytes can be read into the buffer of the `select` server, and its reply to them is
written behind the end of the other one. -/
theorem echo_reply_overruns :
    1011 ≤ Server.select.size ∧ Server.select.reply (List.replicate 1011 65) = none := by
  have hbytes : (0 : UInt8) ∉ List.replicate 1011 65 := fun h =>
    absurd (List.eq_of_mem_replicate h) (by decide)
  refine ⟨by decide, ?_⟩
  rw [Server.reply_eq .select hbytes, List.length_replicate]
  exact if_neg (by decide)

end Hack.EchoReply
