import RdsProv.Ring

/-!
# Sending

A message goes out in one of three ways: in a slot of the eager ring, as an
eager datagram, or by rendezvous – the source is registered, a request (`RTS`)
describes it, and the receiver reads it. `rds_generic_send` chooses by size and
by what the ring answers; `rds_generic_inject` is the short form for small
buffers. The entry points of `fi_ops_msg` and `fi_ops_tagged` are calls of these
two.
-/

/-- The header of an eager datagram. -/
def eagerHdr (tagged : Bool) (flags tag data : UInt64) (total : ℕ) : Hdr :=
  { Hdr.blank rdsOpEager with
    flags := rdsHdrFlags tagged flags
    tag := tag
    data := data
    size := UInt64.ofNat total }

/-- `rds_send_eager`. -/
def rdsSendEager (env : Env) (ep : Ep) (iov : List Iovec) (dest : SockAddr)
    (tag data : UInt64) (context : ℕ) (flags : UInt64) (tagged genComp : Bool) :
    Ep × Ret :=
  let total := ofiTotalIovLen iov
  let hdr := eagerHdr tagged flags tag data total
  match ep.sendDgram env dest (hdr.encode ++ gather env.mem iov) with
  | (ep, .err e) => (ep, .err e)
  | (ep, .ok) =>
    (if genComp then rdsCqWriteTx ep context (txFlags tagged) total 0 else ep, .ok)

/-- The header of a request. -/
def rtsHdr (tagged : Bool) (flags : UInt64) (nseg : ℕ) (tag data : UInt64) (total : ℕ)
    (id : UInt64) : Hdr :=
  { Hdr.blank rdsOpRts with
    flags := rdsHdrFlags tagged flags
    segCnt := UInt16.ofNat nseg
    tag := tag
    data := data
    size := UInt64.ofNat total
    id := id }

/-- The last part of `rds_send_rndzv`: ship the request, over the ring if the
peer has one, and keep the operation if it went out. -/
def rdsSendRts (env : Env) (ep : Ep) (p : Pending) (bytes : List UInt8)
    (dest : SockAddr) (destAddr : UInt64) : Ep × Ret :=
  let (ep, ret) := if ep.cfg.eagerRdma then
      rdsRingSend env ep bytes destAddr 0 0 0 0 false false rdsOpRts
    else (ep, .err fiEnosys)
  let (ep, ret) := if ret = .err fiEnosys then ep.sendDgram env dest bytes else (ep, ret)
  match ret with
  | .err e => (rdsPendingReleaseMrs ep p, .err e)
  | .ok =>
    ({ (ep.linkPending p).log (.txOpen p.id) with
        rndzvTxInflight := ep.rndzvTxInflight + 1 }, .ok)

/-- `rds_send_rndzv`. -/
def rdsSendRndzv (env : Env) (ep : Ep) (iov : List Iovec) (dest : SockAddr)
    (tag data : UInt64) (context : ℕ) (flags : UInt64) (tagged genComp : Bool)
    (destAddr : UInt64) : Ep × Ret :=
  if ep.cfg.rndzvMaxInflight ≤ ep.rndzvTxInflight.toNat then (ep, .err fiEagain)
  else
    let cached := ep.domain.cacheEnabled
    let total := ofiTotalIovLen iov
    let nseg := rdsNseg iov
    if rdsMaxEagerSize < nseg * rdsSegSize then (ep, .err fiEmsgsize)
    else
      -- the registration array and the segment array
      let (ep, okMrs) := ep.malloc env
      let (ep, okSegs) := ep.malloc env
      if !(okMrs && okSegs) then (ep, .err fiEnomem)
      else
        let (dom, segs, mrs, err) :=
          rdsRegChunks env ep.cfg.sock cached (chunksOf iov) ep.domain
        let ep := { ep with domain := dom }
        let unreg := fun (ep : Ep) => { ep with domain := rdsUnregChunks cached ep.domain mrs }
        match err with
        | some e => (unreg ep, .err e)
        | none =>
          match rdsPendingAlloc env ep .rndzvTx context (txFlags tagged) with
          | (ep, none) => (unreg ep, .err fiEnomem)
          | (ep, some p) =>
            let p := { p with len := total, mrs := mrs, cached := cached, noComp := !genComp }
            let hdr := rtsHdr tagged flags nseg tag data total p.id
            rdsSendRts env ep p (hdr.encode ++ encodeSegs segs) dest destAddr

/-- `rds_generic_send`. -/
def rdsGenericSend (env : Env) (ep : Ep) (iov : List Iovec) (destAddr : UInt64)
    (tag data : UInt64) (context : ℕ) (flags : UInt64) (tagged : Bool) : Ep × Ret :=
  if rdsIovLimit < iov.length then (ep, .err fiEinval)
  else
    let total := ofiTotalIovLen iov
    if rdsMaxMsgSize < total then (ep, .err fiEmsgsize)
    else match rdsAvAddr ep.cfg destAddr with
      | none => (ep, .err fiEinval)
      | some dest =>
        let genComp := hasFlag (ep.cfg.txOpFlags ||| flags) fiCompletion
        let (ep, ret) := if ep.cfg.eagerRdma ∧ total ≤ ep.cfg.geom.payload then
            rdsRingSend env ep (ofiCopyFromIov env.mem total iov 0) destAddr tag data context
              flags tagged genComp rdsOpEager
          else (ep, .err fiEnosys)
        if ret ≠ .err fiEnosys then (ep, ret)
        else if total ≤ (if ep.cfg.eagerRdma then ep.cfg.geom.payload else ep.cfg.eagerSize)
        then rdsSendEager env ep iov dest tag data context flags tagged genComp
        else rdsSendRndzv env ep iov dest tag data context flags tagged genComp destAddr

/-- `rds_generic_inject`. -/
def rdsGenericInject (env : Env) (ep : Ep) (buf len : ℕ) (destAddr : UInt64)
    (tag : UInt64) (tagged : Bool) : Ep × Ret :=
  if ep.cfg.eagerSize < len then (ep, .err fiEmsgsize)
  else match rdsAvAddr ep.cfg destAddr with
    | none => (ep, .err fiEinval)
    | some dest =>
      let iov : List Iovec := [⟨buf, len⟩]
      let (ep, ret) := if ep.cfg.eagerRdma ∧ len ≤ ep.cfg.geom.payload then
          rdsRingSend env ep (ofiCopyFromIov env.mem len iov 0) destAddr tag 0 0 0 tagged
            false rdsOpEager
        else (ep, .err fiEnosys)
      if ret ≠ .err fiEnosys then (ep, ret)
      else rdsSendEager env ep iov dest tag 0 0 0 tagged false

/-! ## Entry points -/

section EntryPoints

variable (env : Env) (ep : Ep)

/-- `rds_send`. -/
def rdsSend (buf len : ℕ) (destAddr : UInt64) (context : ℕ) : Ep × Ret :=
  rdsGenericSend env ep [⟨buf, len⟩] destAddr 0 0 context 0 false

/-- `rds_sendv`. -/
def rdsSendv (iov : List Iovec) (destAddr : UInt64) (context : ℕ) : Ep × Ret :=
  rdsGenericSend env ep iov destAddr 0 0 context 0 false

/-- `rds_sendmsg`. -/
def rdsSendmsg (iov : List Iovec) (destAddr data : UInt64) (context : ℕ)
    (flags : UInt64) : Ep × Ret :=
  rdsGenericSend env ep iov destAddr 0 data context flags false

/-- `rds_senddata`. -/
def rdsSenddata (buf len : ℕ) (data destAddr : UInt64) (context : ℕ) : Ep × Ret :=
  rdsGenericSend env ep [⟨buf, len⟩] destAddr 0 data context fiRemoteCqData false

/-- `rds_inject`. -/
def rdsInject (buf len : ℕ) (destAddr : UInt64) : Ep × Ret :=
  rdsGenericInject env ep buf len destAddr 0 false

/-- `rds_tsend`. -/
def rdsTsend (buf len : ℕ) (destAddr tag : UInt64) (context : ℕ) : Ep × Ret :=
  rdsGenericSend env ep [⟨buf, len⟩] destAddr tag 0 context 0 true

/-- `rds_tsendv`. -/
def rdsTsendv (iov : List Iovec) (destAddr tag : UInt64) (context : ℕ) : Ep × Ret :=
  rdsGenericSend env ep iov destAddr tag 0 context 0 true

/-- `rds_tsendmsg`. -/
def rdsTsendmsg (iov : List Iovec) (destAddr tag data : UInt64) (context : ℕ)
    (flags : UInt64) : Ep × Ret :=
  rdsGenericSend env ep iov destAddr tag data context flags true

/-- `rds_tsenddata`. -/
def rdsTsenddata (buf len : ℕ) (data destAddr tag : UInt64) (context : ℕ) : Ep × Ret :=
  rdsGenericSend env ep [⟨buf, len⟩] destAddr tag data context fiRemoteCqData true

/-- `rds_tinject`. -/
def rdsTinject (buf len : ℕ) (destAddr tag : UInt64) : Ep × Ret :=
  rdsGenericInject env ep buf len destAddr tag true

end EntryPoints
