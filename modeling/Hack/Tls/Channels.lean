import Mathlib.Data.Int.Notation
import Mathlib.Data.List.Basic

/-!
# The channel table of the TLS server

This file embeds `set_tlsch`, `get_tlsch_ssl`, `get_tlsch_ctx`, and
`release_tlsch` of `sock-tls-ctx-tcp/server/server_tls.c`. The table is a global
array of `MAX_CONN` channels with a head counter, both zero at program start.
Pointers are numbers, with zero for `NULL`. The calls to `SSL_free` and
`SSL_CTX_free` are recorded in the order in which they are made.
-/

namespace Hack.Tls

/-- `MAX_CONN`. -/
def maxConn : ℕ := 80

/-- `struct TLS_CHANNEL`. -/
structure TlsChannel where
  /-- The connected socket. -/
  sock : ℤ
  /-- The `SSL` pointer of the connection. -/
  ssl : ℕ
  /-- The `SSL_CTX` pointer of the connection. -/
  ctx : ℕ
  deriving DecidableEq

/-- The zero-initialized entry of the global array. -/
def TlsChannel.zero : TlsChannel := ⟨0, 0, 0⟩

/-- The globals `CLIENT_CTX` and `TLSCH_HEAD`, with a log of freed channels. -/
structure TlsTable where
  /-- The array `CLIENT_CTX`. -/
  clientCtx : List TlsChannel
  /-- The counter `TLSCH_HEAD`. -/
  tlschHead : ℤ
  /-- The channels whose pointers were passed to `SSL_free` and `SSL_CTX_free`. -/
  freed : List TlsChannel

/-- The table at program start. -/
def TlsTable.initial : TlsTable := ⟨List.replicate maxConn .zero, 0, []⟩

/-- The entries visited by `for (i = 0; i <= TLSCH_HEAD; i++)`, in order. -/
def TlsTable.scanned (tbl : TlsTable) : List TlsChannel :=
  tbl.clientCtx.take (tbl.tlschHead + 1).toNat

/-- `set_tlsch`, with its return value. -/
def setTlsch (tbl : TlsTable) (sock : ℤ) (sslCon sslCtx : ℕ) : TlsTable × ℤ :=
  if tbl.tlschHead + 1 = maxConn then (tbl, -1)
  else
    ({ tbl with
      clientCtx := tbl.clientCtx.set tbl.tlschHead.toNat ⟨sock, sslCon, sslCtx⟩
      tlschHead := tbl.tlschHead + 1 }, 0)

/-- The common scan of the two lookups: the field of the first matching entry. -/
def getTlsch (field : TlsChannel → ℕ) (tbl : TlsTable) (sock : ℤ) : ℕ :=
  ((tbl.scanned.find? fun ch => ch.sock = sock).map field).getD 0

/-- `get_tlsch_ssl`. -/
def getTlschSsl : TlsTable → ℤ → ℕ := getTlsch TlsChannel.ssl

/-- `get_tlsch_ctx`. -/
def getTlschCtx : TlsTable → ℤ → ℕ := getTlsch TlsChannel.ctx

/-- `release_tlsch`, with its return value. Every matching entry is freed, the
head moves down once, and the array itself is left as it is. -/
def releaseTlsch (tbl : TlsTable) (sock : ℤ) : TlsTable × ℤ :=
  let hits := tbl.scanned.filter fun ch => ch.sock = sock
  if hits = [] then (tbl, -1)
  else ({ tbl with tlschHead := tbl.tlschHead - 1, freed := tbl.freed ++ hits }, 0)

end Hack.Tls
