import Hack.CString

/-!
# The response of the echo servers

The servers of `sock-select-tcp`, `sock-epoll-tcp`, and `sock-thread-ctx-tcp` answer what
they have read in the same way: a greeting and the received string are appended in a buffer
of the size of the one that was read into. The greeting takes room that a long string
needs, and a string that fills the buffer it was read into has no end.
-/

namespace Hack.EchoResponse

open CString

/-- `MAX_BUFF`. -/
def maxBuff : ℕ := 1024

/-- The greeting of a response. -/
def greeting : List UInt8 := "SERVER RESP: ".toList.map Char.toUInt8

/-- `buff`, which was cleared, after the bytes were read into it. -/
def buff (bytes : List UInt8) : List UInt8 :=
  bytes ++ List.replicate (maxBuff - bytes.length) 0

/-- `wbuff` with the response to the bytes. Writing behind its end is a fault. -/
def wbuff (bytes : List UInt8) : Option (List UInt8) :=
  (strcat (List.replicate maxBuff 0) (greeting ++ [0])).bind fun wbuff =>
    strcat wbuff (buff bytes)

/-- The response to the bytes fits in its buffer. -/
def Fits (bytes : List UInt8) : Prop :=
  greeting.length + (bytes.takeWhile (· ≠ 0)).length < maxBuff

instance (bytes : List UInt8) : Decidable (Fits bytes) :=
  inferInstanceAs (Decidable (_ < _))

end Hack.EchoResponse
