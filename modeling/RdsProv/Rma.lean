import RdsProv.Endpoint

/-!
# One-sided operations

`fi_read` and `fi_write` with their variants. A transfer larger than one RDMA
operation may cover is issued in chunks under one pending operation, and the
notification of the last chunk completes it.
-/

/-- The operation of one chunk. -/
def rmaOp (dest : SockAddr) (key remoteOff : UInt64) (loc : LocalVec) (isWrite : Bool)
    (token : UInt64) : RdmaOp where
  dst := dest
  cookie := key
  remoteOff := remoteOff
  loc := loc
  isWrite := isWrite
  notify := true
  token := token
  rts := none

/-- The loop of `rds_rma_common`. Every chunk maps at least one byte, so the
total bounds the number of rounds. -/
def rdsRmaLoop (env : Env) (dest : SockAddr) (key remoteOff : UInt64) (isWrite : Bool)
    (iov : List Iovec) (total : ℕ) : ℕ → ℕ → Ep → Pending → Ep × Pending × Ret
  | 0, _, ep, p => (ep, p, .ok)
  | fuel + 1, off, ep, p =>
    if off < total then
      let (liov, got) := rdsIovSlice iov off (min (total - off) rdsKernelSegMax)
      if got = 0 then (ep, p, .err fiEinval)
      else match rdsPostRdma env ep (rmaOp dest key (remoteOff + UInt64.ofNat off)
          (.iov liov) isWrite p.id) with
        | (ep, .err e) => (ep, p, .err e)
        | (ep, .ok) =>
          rdsRmaLoop env dest key remoteOff isWrite iov total fuel (off + got) ep
            { p with segRemaining := p.segRemaining + 1 }
    else (ep, p, .ok)

/-- `rds_rma_common`. -/
def rdsRmaCommon (env : Env) (ep : Ep) (iov : List Iovec) (remoteFi remoteOff key : UInt64)
    (isWrite : Bool) (context : ℕ) (flags : UInt64) : Ep × Ret :=
  let total := ofiTotalIovLen iov
  if rdsMaxMsgSize < total then (ep, .err fiEmsgsize)
  else match rdsAvAddr ep.cfg remoteFi with
    | none => (ep, .err fiEinval)
    | some dest =>
      match rdsPendingAlloc env ep .rma context
          (fiRma ||| (if isWrite then fiWrite else fiRead)) with
      | (ep, none) => (ep, .err fiEnomem)
      | (ep, some p) =>
        let p := { p with
          len := total
          addr := remoteFi
          noComp := !hasFlag (ep.cfg.txOpFlags ||| flags) fiCompletion }
        let (ep, p, ret) := rdsRmaLoop env dest key remoteOff isWrite iov total total 0 ep p
        if p.segRemaining = 0 then (ep, ret)
        else match ret with
          | .ok => (ep.linkPending p, .ok)
          | .err e => (ep.linkPending { p with error := e }, .ok)

/-- `rds_inject_write`. -/
def rdsInjectWrite (env : Env) (ep : Ep) (buf len : ℕ) (destAddr addr key : UInt64) :
    Ep × Ret :=
  if ep.cfg.eagerSize < len then (ep, .err fiEmsgsize)
  else match ep.malloc env with
    | (ep, false) => (ep, .err fiEnomem)
    | (ep, true) =>
      match rdsAvAddr ep.cfg destAddr with
      | none => (ep, .err fiEinval)
      | some dest =>
        match rdsPendingAlloc env ep .rma 0 (fiRma ||| fiWrite) with
        | (ep, none) => (ep, .err fiEnomem)
        | (ep, some p) =>
          let p := { p with noComp := true, segRemaining := 1 }
          match rdsPostRdma env ep
              (rmaOp dest key addr (.bounce (readMem env.mem buf len)) true p.id) with
          | (ep, .err e) => (ep, .err e)
          | (ep, .ok) => (ep.linkPending p, .ok)

/-! ## Entry points -/

section EntryPoints

variable (env : Env) (ep : Ep)

/-- `rds_write`. -/
def rdsWrite (buf len : ℕ) (destAddr addr key : UInt64) (context : ℕ) : Ep × Ret :=
  rdsRmaCommon env ep [⟨buf, len⟩] destAddr addr key true context 0

/-- `rds_writev`. -/
def rdsWritev (iov : List Iovec) (destAddr addr key : UInt64) (context : ℕ) : Ep × Ret :=
  rdsRmaCommon env ep iov destAddr addr key true context 0

/-- `rds_writemsg`; `rmaIov` are the remote addresses and keys. -/
def rdsWritemsg (iov : List Iovec) (destAddr : UInt64) (rmaIov : List (UInt64 × UInt64))
    (context : ℕ) (flags : UInt64) : Ep × Ret :=
  match rmaIov with
  | [(addr, key)] => rdsRmaCommon env ep iov destAddr addr key true context flags
  | _ => (ep, .err fiEinval)

/-- `rds_read`. -/
def rdsRead (buf len : ℕ) (srcAddr addr key : UInt64) (context : ℕ) : Ep × Ret :=
  rdsRmaCommon env ep [⟨buf, len⟩] srcAddr addr key false context 0

/-- `rds_readv`. -/
def rdsReadv (iov : List Iovec) (srcAddr addr key : UInt64) (context : ℕ) : Ep × Ret :=
  rdsRmaCommon env ep iov srcAddr addr key false context 0

/-- `rds_readmsg`. -/
def rdsReadmsg (iov : List Iovec) (srcAddr : UInt64) (rmaIov : List (UInt64 × UInt64))
    (context : ℕ) (flags : UInt64) : Ep × Ret :=
  match rmaIov with
  | [(addr, key)] => rdsRmaCommon env ep iov srcAddr addr key false context flags
  | _ => (ep, .err fiEinval)

end EntryPoints
