import RdsProv.Mr
import RdsProv.Lib.FirstMatch

/-!
# The endpoint

The state of one endpoint (`struct rds_ep`) and the pieces every path uses:
the completion writers, the pending-operation table, the deferred queue and the
two ways of handing work to the socket.

The state is threaded explicitly. Besides the fields of the source it holds
three kinds of entries that are not fields there:

* what the endpoint has handed over and the outside world has not dealt with
  yet – datagrams accepted by the socket (`wire`), RDMA operations whose
  notification is still to come (`inflight`), and fire-and-forget writes that
  have not landed (`writes`);
* what it has left behind – completions (`txCq`, `rxCq`) and stores into
  application memory (`placed`);
* history, which no branch reads: `trace`, the counters `postings` and
  `arrivals` that number receives and messages, and `idsGiven`.
-/

/-! ## Records -/

/-- A completion queue entry; `err = 0` is a successful completion. -/
structure CqEntry where
  context : ℕ
  flags : UInt64
  len : ℕ
  data : UInt64
  tag : UInt64
  /-- The source address, where the queue reports one. -/
  src : Option UInt64
  err : ℕ
  deriving DecidableEq, Repr

/-- `struct rds_rx_entry`: a posted receive. -/
structure RxEntry where
  context : ℕ
  iov : List Iovec
  totalLen : ℕ
  tag : UInt64
  ignore : UInt64
  addr : UInt64
  flags : UInt64
  /-- History: the number of this receive among those posted. -/
  no : ℕ
  deriving DecidableEq, Repr

/-- `struct rds_unexp`: an arrived message without a receive. -/
structure Unexp where
  hdr : Hdr
  addr : UInt64
  src : SockAddr
  segs : List Seg
  data : List UInt8
  /-- History: the number of this message among those arrived. -/
  no : ℕ
  deriving DecidableEq, Repr

/-- `enum rds_pend_type`. -/
inductive PendType where
  | rndzvTx
  | rndzvRx
  | rma
  deriving DecidableEq, Repr

/-- `struct rds_pending`: an operation whose completion is deferred. `mrs` are
the registrations a rendezvous send holds, cached ones if `cached`. -/
structure Pending where
  id : UInt64
  type : PendType
  context : ℕ
  flags : UInt64
  len : ℕ
  addr : UInt64
  data : UInt64
  tag : UInt64
  error : ℕ
  segRemaining : UInt32
  segDeferred : UInt32
  segTotal : UInt32
  peer : SockAddr
  mrs : List ℕ
  cached : Bool
  peerId : UInt64
  noComp : Bool
  deriving DecidableEq, Repr

/-- `struct rds_deferred`: a socket operation parked for retry. -/
inductive Deferred where
  | fin (peer : SockAddr) (id : UInt64)
  /-- The last argument is history: the id of the request the read is for. -/
  | read (peer : SockAddr) (cookie : UInt64) (remoteOff : UInt64) (liov : List Iovec)
      (id : UInt64) (rts : UInt64)
  deriving DecidableEq, Repr

/-- `enum rds_peer_state`. -/
inductive PeerState where
  | none
  | connecting
  | ready
  | disabled
  deriving DecidableEq, Repr

/-- `struct rds_peer`. -/
structure Peer where
  addr : UInt64
  sa : SockAddr
  state : PeerState
  connectStartMs : UInt64
  rxRing : ℕ → RingSlot
  rxRingMr : Option RdsMr
  rxHead : UInt64
  rxCreditSent : UInt64
  creditCell : UInt64
  creditMr : Option RdsMr
  remRingCookie : UInt64
  remCreditCookie : UInt64
  remSlots : UInt32
  remSlotSize : UInt32
  txHead : UInt64
  txTail : UInt64
  txStage : ℕ → RingSlot
  creditTx : UInt64

/-- What happened at an endpoint, for statements about whole runs. -/
inductive Event where
  /-- A message was given to a receive. -/
  | paired (m : Unexp) (r : RxEntry)
  /-- A rendezvous receive was opened, for a message that is truncated or not. -/
  | rxOpen (id : UInt64) (truncated : Bool)
  /-- A read of a rendezvous receive could be neither issued nor parked. -/
  | readFail (id : UInt64)
  /-- A read of a rendezvous receive was acknowledged, well or not. -/
  | readAck (id : UInt64) (ok : Bool)
  /-- A rendezvous receive was finalized, and what its completion queue got. -/
  | rxDone (id : UInt64) (cqes : List CqEntry)
  /-- A rendezvous send was accepted. -/
  | txOpen (id : UInt64)
  /-- A rendezvous send was completed by its `FIN`. -/
  | txDone (id : UInt64)
  /-- A `FIN` could be neither sent nor parked. -/
  | finLost (peer : SockAddr) (id : UInt64)
  /-- A parked read was discarded because its operation was gone. -/
  | orphan (id : UInt64)
  /-- `seg_deferred` was decremented at zero. -/
  | underflow (id : UInt64)
  deriving DecidableEq, Repr

/-- What is fixed when an endpoint is opened: provider parameters, attributes,
bindings and the address vector. -/
structure EpCfg where
  eagerSize : ℕ
  rndzvMaxInflight : ℕ
  eagerRdma : Bool
  geom : RingGeom
  ringMaxPeers : ℕ
  caps : UInt64
  txOpFlags : UInt64
  rxOpFlags : UInt64
  hasTxCq : Bool
  hasRxCq : Bool
  av : List SockAddr
  self : SockAddr
  sock : ℕ
  /-- The entries of the address vector that were removed: they keep their data and wait
  on the free list of their pool. -/
  avFree : List ℕ := []

/-- The geometry of a provider left at its defaults. -/
def RingGeom.standard : RingGeom where
  slots := 16
  slotSize := 1024
  slots_pow2 := ⟨4, rfl⟩
  slotSize_min := by decide

/-- An endpoint of a provider left at its defaults but for the eager ring, bound to
both completion queues and reporting every completion. -/
def EpCfg.standard (eagerRdma : Bool) (av : List SockAddr) (self : SockAddr) : EpCfg where
  eagerSize := 65536
  rndzvMaxInflight := 256
  eagerRdma := eagerRdma
  geom := RingGeom.standard
  ringMaxPeers := 256
  caps := 0
  txOpFlags := fiCompletion
  rxOpFlags := fiCompletion
  hasTxCq := true
  hasRxCq := true
  av := av
  self := self
  sock := 3

/-- `struct rds_ep`. The posted and unexpected lists are indexed by whether they
are the tagged ones. -/
structure Ep where
  cfg : EpCfg
  posted : Bool → List RxEntry
  unexp : Bool → List Unexp
  pending : List Pending
  deferred : List Deferred
  rndzvTxInflight : UInt32
  opId : UInt64
  /-- The peer table in LRU order; `peer_cnt` is its length. -/
  peers : List Peer
  domain : Domain
  txCq : List CqEntry
  rxCq : List CqEntry
  placed : List Write
  wire : List Dgram
  inflight : List RdmaOp
  writes : List RdmaOp
  tick : ℕ
  trace : List Event
  postings : ℕ
  arrivals : ℕ
  idsGiven : ℕ

namespace Ep

/-- An endpoint as `rds_endpoint` leaves it. -/
def init (cfg : EpCfg) (domain : Domain) : Ep where
  cfg := cfg
  posted _ := []
  unexp _ := []
  pending := []
  deferred := []
  rndzvTxInflight := 0
  opId := 0
  peers := []
  domain := domain
  txCq := []
  rxCq := []
  placed := []
  wire := []
  inflight := []
  writes := []
  tick := 0
  trace := []
  postings := 0
  arrivals := 0
  idsGiven := 0

/-- Record an event. -/
def log (ep : Ep) (e : Event) : Ep := { ep with trace := ep.trace ++ [e] }

/-- `calloc` or `malloc` of a bookkeeping object: whether it succeeded. -/
def malloc (env : Env) (ep : Ep) : Ep × Bool :=
  ({ ep with tick := ep.tick + 1 }, env.alloc ep.tick)

end Ep

/-! ## Addresses -/

/-- `rds_av_addr`. -/
def rdsAvAddr (cfg : EpCfg) (fiAddr : UInt64) : Option SockAddr :=
  if fiAddr.toNat ∈ cfg.avFree then none else cfg.av[fiAddr.toNat]?

theorem getElem?_of_rdsAvAddr {cfg : EpCfg} {a : UInt64} {sa : SockAddr}
    (h : rdsAvAddr cfg a = some sa) : cfg.av[a.toNat]? = some sa := by
  unfold rdsAvAddr at h
  split at h
  · cases h
  · exact h

/-- `ofi_ip_av_get_fi_addr`: the address vector's index of a source. -/
def ofiIpAvGetFiAddr (cfg : EpCfg) (src : SockAddr) : UInt64 :=
  match cfg.av.zipIdx.find? (fun e => e.1 == src && e.2 ∉ cfg.avFree) with
  | none => fiAddrNotavail
  | some e => UInt64.ofNat e.2

/-! ## Completion writers -/

/-- `rds_cq_write_tx`. -/
def rdsCqWriteTx (ep : Ep) (context : ℕ) (flags : UInt64) (len err : ℕ) : Ep :=
  if ep.cfg.hasTxCq then
    { ep with txCq := ep.txCq ++ [⟨context, flags, len, 0, 0, none, err⟩] }
  else ep

/-- `rds_cq_write_rx`. -/
def rdsCqWriteRx (ep : Ep) (context : ℕ) (flags : UInt64) (len : ℕ)
    (data tag src : UInt64) (err : ℕ) : Ep :=
  if ep.cfg.hasRxCq then
    let src := if err = 0 && hasFlag ep.cfg.caps fiSource then some src else none
    { ep with rxCq := ep.rxCq ++ [⟨context, flags, len, data, tag, src, err⟩] }
  else ep

/-! ## Pending operations -/

/-- The id after a given one: `0` is reserved as "none" and is stepped over. -/
def succId (opId : UInt64) : UInt64 := if opId + 1 ≠ 0 then opId + 1 else opId + 2

/-- `rds_next_id`. -/
def rdsNextId (ep : Ep) : Ep × UInt64 :=
  ({ ep with opId := succId ep.opId, idsGiven := ep.idsGiven + 1 }, succId ep.opId)

/-- The record `rds_pending_alloc` fills in. -/
def Pending.blank (id : UInt64) (type : PendType) (context : ℕ) (flags : UInt64) :
    Pending where
  id := id
  type := type
  context := context
  flags := flags
  len := 0
  addr := 0
  data := 0
  tag := 0
  error := 0
  segRemaining := 0
  segDeferred := 0
  segTotal := 0
  peer := 0
  mrs := []
  cached := false
  peerId := 0
  noComp := false

/-- `rds_pending_alloc`. The source links the new record at the tail of
`ep->pending` and fills it in afterwards; here the caller links it when it is
filled, and nothing looks at the table in between. -/
def rdsPendingAlloc (env : Env) (ep : Ep) (type : PendType) (context : ℕ)
    (flags : UInt64) : Ep × Option Pending :=
  match ep.malloc env with
  | (ep, false) => (ep, none)
  | (ep, true) =>
    match rdsNextId ep with
    | (ep, id) => (ep, some (Pending.blank id type context flags))

/-- Link a filled record at the tail of the table. -/
def Ep.linkPending (ep : Ep) (p : Pending) : Ep :=
  { ep with pending := ep.pending ++ [p] }

/-- `rds_pending_find`: the first operation with an id. -/
def rdsPendingFind (ep : Ep) (id : UInt64) : Option Pending :=
  ep.pending.find? (·.id == id)

/-- Write back the operation that `rdsPendingFind` returned. -/
def Ep.storePending (ep : Ep) (p : Pending) : Ep :=
  { ep with pending := ep.pending.modifyFirst (·.id == p.id) (fun _ => p) }

/-- Unlink the operation that `rdsPendingFind` returned. -/
def Ep.unlinkPending (ep : Ep) (id : UInt64) : Ep :=
  { ep with pending := ep.pending.eraseP (·.id == id) }

/-- `rds_pending_release_mrs`. -/
def rdsPendingReleaseMrs (ep : Ep) (p : Pending) : Ep :=
  { ep with domain := rdsUnregChunks p.cached ep.domain p.mrs }

/-- `rds_pending_complete`, for the operation `rdsPendingFind` returned. -/
def rdsPendingComplete (ep : Ep) (p : Pending) : Ep :=
  let ep := if (p.type = .rndzvTx ∨ p.type = .rma) ∧ !p.noComp then
      rdsCqWriteTx ep p.context p.flags p.len p.error else ep
  let ep := if p.type = .rndzvTx ∧ ep.rndzvTxInflight ≠ 0 then
      { ep with rndzvTxInflight := ep.rndzvTxInflight - 1 } else ep
  let ep := if p.type = .rndzvTx then ep.log (.txDone p.id) else ep
  (rdsPendingReleaseMrs ep p).unlinkPending p.id

/-! ## The socket -/

/-- The return value of a `sendmsg` that failed with an `errno`. -/
def sockRet (e : ℕ+) : Ret := if e = fiEagain ∨ e = fiEnobufs then .err fiEagain else .err e

/-- `sendmsg` on the endpoint's socket, with the `errno` mapped as every caller
maps it. -/
def Ep.sendmsg (env : Env) (ep : Ep) (op : SockOp) : Ep × Ret :=
  ({ ep with tick := ep.tick + 1 },
    match env.sendmsg ep.tick op with
    | none => .ok
    | some e => sockRet e)

/-- Send a datagram; an accepted one is on the wire. -/
def Ep.sendDgram (env : Env) (ep : Ep) (dst : SockAddr) (bytes : List UInt8) : Ep × Ret :=
  match ep.sendmsg env (.dgram dst bytes) with
  | (ep, .ok) => ({ ep with wire := ep.wire ++ [⟨ep.cfg.self, dst, bytes⟩] }, .ok)
  | (ep, .err e) => (ep, .err e)

/-- `rds_post_rdma`. -/
def rdsPostRdma (env : Env) (ep : Ep) (op : RdmaOp) : Ep × Ret :=
  if op.loc.cnt = 0 ∨ rdsIovLimit < op.loc.cnt then (ep, .err fiEinval)
  else match ep.sendmsg env (.rdma op) with
    | (ep, .err e) => (ep, .err e)
    | (ep, .ok) =>
      if op.notify then ({ ep with inflight := ep.inflight ++ [op] }, .ok)
      else ({ ep with writes := ep.writes ++ [op] }, .ok)

/-- The header of a `FIN`. -/
def finHdr (id : UInt64) : Hdr := { Hdr.blank rdsOpFin with id := id }

/-- `rds_send_fin_raw`. -/
def rdsSendFinRaw (env : Env) (ep : Ep) (peer : SockAddr) (id : UInt64) : Ep × Ret :=
  ep.sendDgram env peer (finHdr id).encode

/-- `rds_defer_fin`. -/
def rdsDeferFin (env : Env) (ep : Ep) (peer : SockAddr) (id : UInt64) : Ep :=
  match ep.malloc env with
  | (ep, false) => ep.log (.finLost peer id)
  | (ep, true) => { ep with deferred := ep.deferred ++ [.fin peer id] }

/-- `rds_send_fin`. -/
def rdsSendFin (env : Env) (ep : Ep) (peer : SockAddr) (id : UInt64) : Ep :=
  match rdsSendFinRaw env ep peer id with
  | (ep, .ok) => ep
  | (ep, .err e) =>
    if e = fiEagain then rdsDeferFin env ep peer id else ep.log (.finLost peer id)
