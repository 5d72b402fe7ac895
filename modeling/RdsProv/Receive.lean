import RdsProv.Ring

/-!
# Receiving

The matching engine and what happens to a matched message. A message meets a
receive in one of two places: `rds_handle_inbound` looks through the posted
receives, `rds_post_recv` through the unexpected messages. Either way an eager
message is copied out and a rendezvous request starts one RDMA read per source
segment (`rds_start_rndzv_read`).

A read that the socket refuses for lack of room is parked on the deferred queue
and re-issued by `rds_progress_deferred`; a receive is finalized – `FIN` to the
sender, completion to the application – when none of its reads is outstanding or
parked.
-/

/-! ## Matching -/

/-- `rds_tag_match`. -/
def rdsTagMatch (rxTag ignore msgTag : UInt64) : Bool :=
  (rxTag ^^^ msgTag) &&& ~~~ignore == 0

/-- `rds_addr_match`. -/
def rdsAddrMatch (rxAddr src : UInt64) : Bool := rxAddr == fiAddrUnspec || rxAddr == src

/-- The test both scans make: does a receive of the given kind take the
message? -/
def rdsMatches (tagged : Bool) (rx : RxEntry) (src msgTag : UInt64) : Bool :=
  rdsAddrMatch rx.addr src && (!tagged || rdsTagMatch rx.tag rx.ignore msgTag)

/-- `rds_match_posted`: unlink the first posted receive that takes a message. -/
def rdsMatchPosted (ep : Ep) (hdr : Hdr) (src : UInt64) (tagged : Bool) :
    Ep × Option RxEntry :=
  let test := fun rx => rdsMatches tagged rx src hdr.tag
  match (ep.posted tagged).find? test with
  | none => (ep, none)
  | some rx =>
    ({ ep with
      posted := Function.update ep.posted tagged ((ep.posted tagged).eraseP test) },
      some rx)

/-- `rds_match_unexp`: unlink the first unexpected message a receive takes. -/
def rdsMatchUnexp (ep : Ep) (rx : RxEntry) (tagged : Bool) : Ep × Option Unexp :=
  let test := fun ux => rdsMatches tagged rx ux.addr ux.hdr.tag
  match (ep.unexp tagged).find? test with
  | none => (ep, none)
  | some ux =>
    ({ ep with
      unexp := Function.update ep.unexp tagged ((ep.unexp tagged).eraseP test) },
      some ux)

/-! ## Delivery -/

/-- `rds_rx_flags`. -/
def rdsRxFlags (hdr : Hdr) : UInt64 :=
  fiRecv ||| (if hdr.tagged then fiTagged else fiMsg)
    ||| (if hdr.flags &&& rdsHfCqData != 0 then fiRemoteCqData else 0)

/-- `rds_deliver_eager`. -/
def rdsDeliverEager (ep : Ep) (rx : RxEntry) (hdr : Hdr) (payload : List UInt8)
    (src : UInt64) : Ep :=
  let (writes, copied) := ofiCopyToIov rx.iov 0 payload
  let ep := { ep with placed := ep.placed ++ writes }
  let err := if rx.totalLen < payload.length then fiEtrunc.val else 0
  let report := hasFlag (rx.flags ||| ep.cfg.rxOpFlags) fiCompletion
  if report ∨ err ≠ 0 then
    rdsCqWriteRx ep rx.context (rdsRxFlags hdr) copied hdr.data hdr.tag src err
  else ep

/-- `rds_rndzv_rx_finalize`, but for unlinking the operation. -/
def rdsRndzvRxFinalize (env : Env) (ep : Ep) (p : Pending) : Ep :=
  let ep := rdsSendFin env ep p.peer p.peerId
  let done := if !p.noComp ∨ p.error ≠ 0 then
      rdsCqWriteRx ep p.context p.flags p.len p.data p.tag p.addr p.error
    else ep
  done.log (.rxDone p.id (done.rxCq.drop ep.rxCq.length))

/-- One read of a rendezvous receive: where to read from, and into what. -/
structure ReadReq where
  cookie : UInt64
  remoteOff : UInt64
  liov : List Iovec
  deriving DecidableEq, Repr

/-- The reads `rds_start_rndzv_read` makes: one per source segment until
`effective` bytes are covered, each into its slice of the receive buffer. -/
def rndzvReads (iov : List Iovec) (effective : ℕ) : ℕ → List Seg → List ReadReq
  | _, [] => []
  | off, s :: segs =>
    if off < effective then
      let thisLen := min s.len.toNat (effective - off)
      ⟨s.cookie, s.off, (rdsIovSlice iov off thisLen).1⟩
        :: rndzvReads iov effective (off + thisLen) segs
    else []

/-- There is at most one read per segment. -/
theorem length_rndzvReads (iov : List Iovec) (effective off : ℕ) (segs : List Seg) :
    (rndzvReads iov effective off segs).length ≤ segs.length := by
  induction segs generalizing off with
  | nil => exact le_rfl
  | cons s segs ih =>
    rw [rndzvReads]
    split
    · exact Nat.succ_le_succ (ih _)
    · exact Nat.zero_le _

/-- The RDMA operation of a read. -/
def ReadReq.op (r : ReadReq) (peer : SockAddr) (token rts : UInt64) : RdmaOp where
  dst := peer
  cookie := r.cookie
  remoteOff := r.remoteOff
  loc := .iov r.liov
  isWrite := false
  notify := true
  token := token
  rts := some rts

/-- Record a failure in an operation; the first one stays. -/
def Pending.fail (p : Pending) (e : ℕ) : Pending :=
  if p.error = 0 then { p with error := e } else p

/-- One iteration of the loop of `rds_start_rndzv_read`: issue a read, park it if
the socket has no room (`rds_defer_read`), and count what became of it. -/
def rdsIssueRead (env : Env) (peer : SockAddr) (rts : UInt64) (s : Ep × Pending)
    (r : ReadReq) : Ep × Pending :=
  let (ep, p) := s
  match rdsPostRdma env ep (r.op peer p.id rts) with
  | (ep, .ok) =>
    (ep, { p with segRemaining := p.segRemaining + 1, segTotal := p.segTotal + 1 })
  | (ep, .err e) =>
    if e = fiEagain then
      match ep.malloc env with
      | (ep, true) =>
        ({ ep with
          deferred := ep.deferred ++ [.read peer r.cookie r.remoteOff r.liov p.id rts] },
          { p with segDeferred := p.segDeferred + 1, segTotal := p.segTotal + 1 })
      | (ep, false) => (ep.log (.readFail p.id), p.fail fiEnomem)
    else (ep.log (.readFail p.id), p.fail e)

/-- What `rds_start_rndzv_read` fills into a new operation. -/
def Pending.ofRequest (p : Pending) (rx : RxEntry) (hdr : Hdr) (peer : SockAddr)
    (src rxOpFlags : UInt64) : Pending :=
  { p with
    len := min hdr.size.toNat rx.totalLen
    addr := src
    data := hdr.data
    tag := hdr.tag
    peer := peer
    peerId := hdr.id
    error := if rx.totalLen < hdr.size.toNat then fiEtrunc.val else 0
    noComp := !hasFlag (rx.flags ||| rxOpFlags) fiCompletion }

/-- `rds_start_rndzv_read`. -/
def rdsStartRndzvRead (env : Env) (ep : Ep) (rx : RxEntry) (hdr : Hdr) (segs : List Seg)
    (peer : SockAddr) (src : UInt64) : Ep :=
  match rdsPendingAlloc env ep .rndzvRx rx.context (rdsRxFlags hdr) with
  | (ep, none) =>
    rdsCqWriteRx (rdsSendFin env ep peer hdr.id) rx.context (rdsRxFlags hdr) 0 hdr.data
      hdr.tag src fiEnomem
  | (ep, some p) =>
    let p := p.ofRequest rx hdr peer src ep.cfg.rxOpFlags
    let ep := ep.log (.rxOpen p.id (rx.totalLen < hdr.size.toNat))
    let (ep, p) := (rndzvReads rx.iov p.len 0 segs).foldl (rdsIssueRead env peer hdr.id) (ep, p)
    if p.segRemaining = 0 ∧ p.segDeferred = 0 then rdsRndzvRxFinalize env ep p
    else ep.linkPending p

/-- Give a message to a receive. -/
def rdsDeliver (env : Env) (ep : Ep) (rx : RxEntry) (m : Unexp) : Ep :=
  let ep := ep.log (.paired m rx)
  if m.hdr.op = rdsOpEager then rdsDeliverEager ep rx m.hdr m.data m.addr
  else rdsStartRndzvRead env ep rx m.hdr m.segs m.src m.addr

/-! ## Inbound dispatch -/

/-- The message an inbound header and payload stand for. -/
def Unexp.ofInbound (hdr : Hdr) (payload : List UInt8) (src : SockAddr)
    (srcFi : UInt64) (no : ℕ) : Unexp where
  hdr := hdr
  addr := srcFi
  src := src
  segs := if hdr.op = rdsOpEager then [] else decodeSegs hdr.segCnt.toNat payload
  data := if hdr.op = rdsOpEager then payload else []
  no := no

/-- Append a message to an unexpected list. -/
def Ep.linkUnexp (ep : Ep) (m : Unexp) (tagged : Bool) : Ep :=
  { ep with unexp := Function.update ep.unexp tagged (ep.unexp tagged ++ [m]) }

/-- `rds_enqueue_unexp`. -/
def rdsEnqueueUnexp (env : Env) (ep : Ep) (m : Unexp) (tagged : Bool) : Ep :=
  match ep.malloc env with
  | (ep, false) => if m.hdr.op = rdsOpRts then rdsSendFin env ep m.src m.hdr.id else ep
  | (ep, true) =>
    if m.hdr.op = rdsOpEager then ep.linkUnexp m tagged
    else match ep.malloc env with
      | (ep, false) => rdsSendFin env ep m.src m.hdr.id
      | (ep, true) => ep.linkUnexp m tagged

/-- The matching part of `rds_handle_inbound`, for an eager message or a
request. -/
def rdsHandleMessage (env : Env) (ep : Ep) (m : Unexp) : Ep :=
  let ep := { ep with arrivals := ep.arrivals + 1 }
  match rdsMatchPosted ep m.hdr m.addr m.hdr.tagged with
  | (ep, some rx) => rdsDeliver env ep rx m
  | (ep, none) => rdsEnqueueUnexp env ep m m.hdr.tagged

/-- A message that a posted receive takes. -/
theorem rdsHandleMessage_found (env : Env) {ep : Ep} {m : Unexp} {rx : RxEntry}
    (h : (ep.posted m.hdr.tagged).find?
      (fun rx => rdsMatches m.hdr.tagged rx m.addr m.hdr.tag) = some rx) :
    rdsHandleMessage env ep m = rdsDeliver env { ep with
      arrivals := ep.arrivals + 1
      posted := Function.update ep.posted m.hdr.tagged ((ep.posted m.hdr.tagged).eraseP
        (fun rx => rdsMatches m.hdr.tagged rx m.addr m.hdr.tag)) } rx m := by
  unfold rdsHandleMessage rdsMatchPosted
  dsimp only
  rw [h]

/-- A message that no posted receive takes. -/
theorem rdsHandleMessage_none (env : Env) {ep : Ep} {m : Unexp}
    (h : (ep.posted m.hdr.tagged).find?
      (fun rx => rdsMatches m.hdr.tagged rx m.addr m.hdr.tag) = none) :
    rdsHandleMessage env ep m
      = rdsEnqueueUnexp env { ep with arrivals := ep.arrivals + 1 } m m.hdr.tagged := by
  unfold rdsHandleMessage rdsMatchPosted
  dsimp only
  rw [h]

/-- `rds_handle_inbound`. -/
def rdsHandleInbound (env : Env) (ep : Ep) (hdr : Hdr) (payload : List UInt8)
    (src : SockAddr) (srcFi : UInt64) : Ep :=
  if hdr.magic ≠ rdsHdrMagic then ep
  else if hdr.op = rdsOpFin then
    match rdsPendingFind ep hdr.id with
    | none => ep
    | some p => if p.type = .rndzvTx then rdsPendingComplete ep p else ep
  else if hdr.op = rdsOpRingReq ∨ hdr.op = rdsOpRingAck then
    rdsRingHandleCtrl env ep hdr payload srcFi
  else if hdr.op = rdsOpRts ∧ payload.length < hdr.segCnt.toNat * rdsSegSize then ep
  else rdsHandleMessage env ep (Unexp.ofInbound hdr payload src srcFi ep.arrivals)

/-! ## Receive posting -/

/-- `rds_post_recv`. -/
def rdsPostRecv (env : Env) (ep : Ep) (iov : List Iovec) (addr tag ignore : UInt64)
    (context : ℕ) (flags : UInt64) (tagged : Bool) : Ep × Ret :=
  if rdsIovLimit < iov.length then (ep, .err fiEinval)
  else
    let rx : RxEntry :=
      ⟨context, iov, ofiTotalIovLen iov, tag, ignore, addr,
        flags ||| (if tagged then fiTagged else 0), ep.postings⟩
    let ep := { ep with postings := ep.postings + 1 }
    match rdsMatchUnexp ep rx tagged with
    | (ep, some ux) => (rdsDeliver env ep rx ux, .ok)
    | (ep, none) =>
      match ep.malloc env with
      | (ep, false) => (ep, .err fiEnomem)
      | (ep, true) =>
        ({ ep with
          posted := Function.update ep.posted tagged (ep.posted tagged ++ [rx]) }, .ok)

/-- The entry `rds_ep_cancel` reports for a cancelled receive. -/
def cancelEntry (rx : RxEntry) (context : ℕ) : CqEntry :=
  ⟨context, fiRecv ||| (if hasFlag rx.flags fiTagged then fiTagged else fiMsg), 0, 0,
    rx.tag, none, fiEcanceled⟩

/-- `rds_ep_cancel`: unlink the first receive with the context, untagged ones
first. -/
def rdsEpCancel (ep : Ep) (context : ℕ) : Ep × Ret :=
  let cancelIn := fun (tagged : Bool) (rx : RxEntry) =>
    let left := (ep.posted tagged).eraseP (·.context == context)
    let ep := { ep with posted := Function.update ep.posted tagged left }
    (if ep.cfg.hasRxCq then { ep with rxCq := ep.rxCq ++ [cancelEntry rx context] } else ep,
      Ret.ok)
  match (ep.posted false).find? (·.context == context) with
  | some rx => cancelIn false rx
  | none =>
    match (ep.posted true).find? (·.context == context) with
    | some rx => cancelIn true rx
    | none => (ep, .err fiEnoent)

/-! ## Notifications -/

/-- `rds_handle_rdma_notify`. -/
def rdsHandleRdmaNotify (env : Env) (ep : Ep) (token : UInt64) (status : ℤ) : Ep :=
  match rdsPendingFind ep token with
  | none => ep
  | some p =>
    let ep := if p.type = .rndzvRx then ep.log (.readAck p.id (status == 0)) else ep
    let p := if status ≠ 0 then p.fail status.natAbs else p
    if p.segRemaining = 0 then ep.storePending p
    else
      let p := { p with segRemaining := p.segRemaining - 1 }
      if p.segRemaining ≠ 0 then ep.storePending p
      else match p.type with
        | .rma => rdsPendingComplete ep p
        | .rndzvRx =>
          if p.segDeferred = 0 then (rdsRndzvRxFinalize env ep p).unlinkPending p.id
          else ep.storePending p
        | .rndzvTx => ep.storePending p

/-! ## The deferred queue -/

/-- Re-issue a parked read: what `rds_progress_deferred` does with one. The
result says whether it stays parked. -/
def rdsRetryRead (env : Env) (ep : Ep) (peer : SockAddr) (r : ReadReq) (id rts : UInt64) :
    Ep × Bool :=
  match rdsPendingFind ep id with
  | none => (ep.log (.orphan id), false)
  | some p =>
    let (ep, ret) := rdsPostRdma env ep (r.op peer id rts)
    if ret = .err fiEagain then (ep, true)
    else
      let ep := if p.segDeferred = 0 then ep.log (.underflow id) else ep
      let p : Pending := { p with segDeferred := p.segDeferred - 1 }
      let (ep, p) : Ep × Pending := match ret with
        | .ok => (ep, { p with segRemaining := p.segRemaining + 1 })
        | .err e => (ep.log (.readFail p.id), p.fail e)
      if p.segRemaining = 0 ∧ p.segDeferred = 0 then
        ((rdsRndzvRxFinalize env ep p).unlinkPending p.id, false)
      else (ep.storePending p, false)

/-- Retry one parked operation; the result says whether it stays parked. -/
def rdsRetryDeferred (env : Env) (ep : Ep) : Deferred → Ep × Bool
  | .fin peer id =>
    match rdsSendFinRaw env ep peer id with
    | (ep, .ok) => (ep, false)
    | (ep, .err e) =>
      if e = fiEagain then (ep, true) else (ep.log (.finLost peer id), false)
  | .read peer cookie remoteOff liov id rts =>
    rdsRetryRead env ep peer ⟨cookie, remoteOff, liov⟩ id rts

/-- The walk of `rds_progress_deferred`. The queue of the endpoint holds what is
still to be visited, `kept` what was visited and stays parked. A `FIN` that a
finalized receive parks goes to the tail and is visited in the same walk, unless
the walk had already saved the end of the list as its next node. -/
def rdsProgressDeferredLoop (env : Env) : ℕ → List Deferred → Ep → Ep × List Deferred
  | 0, kept, ep => (ep, kept)
  | fuel + 1, kept, ep =>
    match ep.deferred with
    | [] => (ep, kept)
    | d :: todo =>
      let (ep, stays) := rdsRetryDeferred env { ep with deferred := todo } d
      let kept := if stays then kept ++ [d] else kept
      if todo = [] then (ep, kept) else rdsProgressDeferredLoop env fuel kept ep

/-- `rds_progress_deferred`. Each visit removes an operation from those still to
be visited, and only a read can put one – a `FIN` – in its place. -/
def rdsProgressDeferred (env : Env) (ep : Ep) : Ep × Ret :=
  let (ep, kept) := rdsProgressDeferredLoop env (2 * ep.deferred.length) [] ep
  ({ ep with deferred := kept ++ ep.deferred },
    if kept = [] then .ok else .err fiEagain)
