import Mathlib.Data.PNat.Basic

/-!
# The provider's vocabulary

Return codes, flag words, limits and the few record types every file of the
provider shares. The values are those of `rds.h`, `rdma/fabric.h` and
`rdma/fi_errno.h`.

Two conventions hold throughout. A C function that returns `0` or a negated
`errno` returns a `Ret` here. A field of fixed width keeps that width
(`UInt8`, `UInt16`, `UInt32`, `UInt64`), since the provider relies on several of
them wrapping; a `size_t` that measures an application buffer is a natural
number, because buffers are objects of one address space and their sizes add up
without overflow.
-/

/-- What a provider function returns: `0`, or a negated `errno`. -/
inductive Ret where
  | ok
  | err (e : ℕ+)
  deriving DecidableEq, Repr

/-! ## Error numbers -/

/-- The numerals of a pair of endpoints, and the positive number two, rest on this. -/
instance neZeroTwo : NeZero 2 := ⟨by decide⟩

abbrev fiEnoent : ℕ+ := 2
abbrev fiEio : ℕ+ := 5
abbrev fiEagain : ℕ+ := 11
abbrev fiEnomem : ℕ+ := 12
abbrev fiEbusy : ℕ+ := 16
abbrev fiEinval : ℕ+ := 22
abbrev fiEnosys : ℕ+ := 38
abbrev fiEmsgsize : ℕ+ := 90
abbrev fiEnobufs : ℕ+ := 105
abbrev fiEcanceled : ℕ+ := 125
abbrev fiEopbadstate : ℕ+ := 258
abbrev fiEtrunc : ℕ+ := 265

/-! ## Flag words -/

abbrev fiMsg : UInt64 := 0x2
abbrev fiRma : UInt64 := 0x4
abbrev fiTagged : UInt64 := 0x8
abbrev fiRead : UInt64 := 0x100
abbrev fiWrite : UInt64 := 0x200
abbrev fiRecv : UInt64 := 0x400
abbrev fiSend : UInt64 := 0x800
abbrev fiRemoteCqData : UInt64 := 0x20000
abbrev fiCompletion : UInt64 := 0x1000000
abbrev fiInject : UInt64 := 0x2000000
abbrev fiSource : UInt64 := 0x200000000000000
abbrev fiDirectedRecv : UInt64 := 0x800000000000000

/-- `FI_ADDR_UNSPEC`: the address of a receive that takes any source. -/
abbrev fiAddrUnspec : UInt64 := 0xffffffffffffffff

/-- `FI_ADDR_NOTAVAIL`: what the address vector answers for a source it does
not hold. It is the same word as `FI_ADDR_UNSPEC`. -/
abbrev fiAddrNotavail : UInt64 := 0xffffffffffffffff

/-- Whether a flag word has any of the bits of a mask. -/
def hasFlag (w mask : UInt64) : Bool := w &&& mask != 0

/-! ## Limits -/

/-- `RDS_IOV_LIMIT`. -/
abbrev rdsIovLimit : ℕ := 8

/-- `RDS_KERNEL_SEG_MAX`: one datagram, one registration or one RDMA operation
covers at most this many bytes. -/
abbrev rdsKernelSegMax : ℕ := 1048576

/-- `sizeof(struct rds_hdr)`. -/
abbrev rdsHdrSize : ℕ := 40

/-- `sizeof(struct rds_rndzv_seg)`. -/
abbrev rdsSegSize : ℕ := 24

/-- `RDS_MAX_EAGER_SIZE`. -/
abbrev rdsMaxEagerSize : ℕ := rdsKernelSegMax - rdsHdrSize

/-- `RDS_DEF_INJECT_SIZE`, the inject size that `rds_tx_attr` advertises. -/
abbrev rdsDefInjectSize : ℕ := 8192

/-- `RDS_MAX_MSG_SIZE`. -/
abbrev rdsMaxMsgSize : ℕ := 268435456

/-- `RDS_RING_CONNECT_TIMEOUT_MS`. -/
abbrev rdsRingConnectTimeoutMs : UInt64 := 100

/-! ## Addresses and buffers -/

/-- A socket address: an IPv4 address and a port, only ever compared. -/
abbrev SockAddr := ℕ

/-- `struct iovec`: a piece of application memory. -/
structure Iovec where
  base : ℕ
  len : ℕ
  deriving DecidableEq, Repr

/-- A registered region of memory. -/
structure Region where
  base : ℕ
  len : ℕ
  deriving DecidableEq, Repr

/-- Bytes stored at an address: the effect of one `memcpy` into application
memory. -/
structure Write where
  addr : ℕ
  bytes : List UInt8
  deriving DecidableEq, Repr
