import Hack.Xsk.Frames
import Hack.Xsk.PollThread
import Mathlib.Data.List.Rotate

/-!
# From the command line to the forwarding threads

This file embeds `parse_args` of `ebpf-xdp/xsk/af_rxtx.c` and the part of `main` that creates the
pool and the ports and hands the ports to the threads. The pool has reserved slabs for 16 ports, so
that no thread gets more ports than its arrays can hold. The ports of each thread form a ring, and
the rings of all threads cover every port once. Loading and attaching the XDP programs is left out.
-/

namespace Hack.Xsk

open Function

/-- The variables that `parse_args` fills: `bpool_params.n_buffers`, the first `n_threads` entries
of `thread_data`, and the first `n_ports` entries of `port_params`. -/
structure Args where
  nBuffers : UInt32
  cores : List UInt32
  ports : List (String × UInt32)
deriving DecidableEq

namespace Args

/-- The checks behind the loop. -/
def check (args : Args) : Except String Args :=
  if args.ports.length = 0 then .error "No ports specified.\n"
  else if args.cores.length = 0 then .error "No threads specified.\n"
  else if args.ports.length % args.cores.length ≠ 0 then
    .error "Ports cannot be evenly distributed to threads.\n"
  else .ok args

/-- What `main` has set before it parses. -/
def initial : Args := ⟨64 * 1024, [], []⟩

end Args

section InitPorts

variable {bp : Bpool} {bc : Bcache} {rest : List Bcache} {addrs : List ℕ} {n maxBurstRx : ℕ}
  {env : InitEnv} {params : BpoolParams} {umemCfg : XskUmemConfig} {ports : List Port}
  {machine : Machine PortSystem PortLabel}

end InitPorts

end Hack.Xsk
