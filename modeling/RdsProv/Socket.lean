import RdsProv.Wire

/-!
# The socket and the rest of the environment

An endpoint talks to the kernel through one socket: `sendmsg` of a datagram,
`sendmsg` of an RDMA operation, and the registration calls. `SockOp` is what it
hands over, `Env` is everything that is decided elsewhere – whether a call is
refused, whether an allocation succeeds, what the clock reads, what the
application's buffers hold, which cookie a registration gets.

An `Env` answers by the number of the call (and, for `sendmsg`, by the
operation), so a result that holds for every `Env` holds for every sequence of
outcomes.
-/

/-- The local side of an RDMA operation: application memory, a staged ring slot
(its index and what was staged there), the outgoing credit word, or the private
copy of an injected write. -/
inductive LocalVec where
  | iov (l : List Iovec)
  | stage (idx : ℕ) (slot : RingSlot)
  | credit (value : UInt64)
  | bounce (bytes : List UInt8)
  deriving DecidableEq, Repr

/-- The number of entries of the local vector. -/
def LocalVec.cnt : LocalVec → ℕ
  | .iov l => l.length
  | _ => 1

/-- An RDMA operation as `rds_post_rdma` builds it. -/
structure RdmaOp where
  dst : SockAddr
  cookie : UInt64
  remoteOff : UInt64
  loc : LocalVec
  isWrite : Bool
  /-- `RDS_RDMA_NOTIFY_ME`. -/
  notify : Bool
  token : UInt64
  /-- History: the id of the request a rendezvous read is made for. -/
  rts : Option UInt64
  deriving DecidableEq, Repr

/-- What is handed to `sendmsg`. -/
inductive SockOp where
  | dgram (dst : SockAddr) (bytes : List UInt8)
  | rdma (op : RdmaOp)
  deriving DecidableEq, Repr

/-- The RDMA operation among what is handed to `sendmsg`. -/
def SockOp.rdma? : SockOp → Option RdmaOp
  | .dgram .. => none
  | .rdma op => some op

/-- A datagram in flight. -/
structure Dgram where
  src : SockAddr
  dst : SockAddr
  bytes : List UInt8
  deriving DecidableEq, Repr

/-- The header a datagram starts with. -/
def Dgram.hdr (d : Dgram) : Hdr := Hdr.decode d.bytes

/-- A registration call the kernel has carried out. -/
inductive KernelCall where
  /-- `RDS_GET_MR` or `RDS_GET_MR_FOR_DEST` on a socket, and the cookie it
  returned. -/
  | getMr (sock : ℕ) (region : Region) (cookie : UInt64)
  /-- `RDS_FREE_MR`. -/
  | freeMr (sock : ℕ) (cookie : UInt64)
  deriving DecidableEq, Repr

/-- **Everything an entry point does not decide itself.** -/
structure Env where
  /-- The outcome of a `sendmsg`: accepted, or an `errno`. -/
  sendmsg : ℕ → SockOp → Option ℕ+
  /-- Whether an allocation succeeds. -/
  alloc : ℕ → Bool
  /-- Where an allocation is placed. -/
  heap : ℕ → ℕ
  /-- `ofi_gettime_ms`. -/
  now : ℕ → UInt64
  /-- The application's memory. -/
  mem : ℕ → UInt8
  /-- The outcome of a registration, given the calls made before it. -/
  getMr : List KernelCall → Region → Except ℕ+ UInt64
  /-- Which of several matching nodes the cache's tree search meets first. -/
  pick : ℕ → ℕ
  /-- Whether the memory monitor still vouches for a cached entry. -/
  valid : ℕ → Bool
  /-- Whether the memory monitor accepts a subscription. -/
  subscribe : ℕ → Bool
  /-- How many rounds a cache search may take. -/
  searchRounds : ℕ

namespace Env

/-- Every allocation succeeds. -/
def AllocOk (env : Env) : Prop := ∀ t, env.alloc t = true

/-- `sendmsg` may refuse for lack of room, but has no other failure. -/
def NoHardError (env : Env) : Prop :=
  ∀ t op e, env.sendmsg t op = some e → e = fiEagain ∨ e = fiEnobufs

/-- An environment in which nothing is refused, for use in examples. -/
def calm (getMr : List KernelCall → Region → Except ℕ+ UInt64) : Env where
  sendmsg _ _ := none
  alloc _ := true
  heap _ := 0
  now _ := 0
  mem _ := 0
  getMr := getMr
  pick _ := 0
  valid _ := true
  subscribe _ := true
  searchRounds := 2

end Env
