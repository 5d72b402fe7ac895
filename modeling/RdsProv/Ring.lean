import RdsProv.Endpoint

/-!
# The eager ring: peers, handshake and sending

With the ring enabled, an endpoint keeps for each peer a receive ring that the
peer writes into with RDMA, and writes into the ring the peer keeps for it. The
two sides tell each other where their rings are with `RING_REQ` and `RING_ACK`
datagrams; until a peer is `READY` a send only kicks the handshake and asks the
caller to retry, and after a deadline the peer is `DISABLED` for good.

Sending stages a whole slot and posts one fire-and-forget write. Flow control is
by counters: `txHead` slots produced, `txTail` slots the peer is known to have
consumed, learned from its credit cell or from the `ack` field of its own slots.
The hash table of the source is left out: it holds one record per address, so a
search of the LRU list finds the same record.
-/

/-! ## The peer table -/

/-- `rds_peer_find`. -/
def rdsPeerFind (ep : Ep) (addr : UInt64) : Option Peer := ep.peers.find? (·.addr == addr)

/-- Write back a peer record. -/
def Ep.setPeer (ep : Ep) (p : Peer) : Ep :=
  { ep with peers := ep.peers.modifyFirst (·.addr == p.addr) (fun _ => p) }

/-- Move a peer to the head of the LRU list. -/
def Ep.touchPeer (ep : Ep) (p : Peer) : Ep :=
  { ep with peers := p :: ep.peers.eraseP (·.addr == p.addr) }

/-- A peer record as `calloc` and `rds_peer_create` leave it before its ring is
registered. -/
def Peer.blank (addr : UInt64) (sa : SockAddr) : Peer where
  addr := addr
  sa := sa
  state := .none
  connectStartMs := 0
  rxRing _ := RingSlot.zero
  rxRingMr := none
  rxHead := 0
  rxCreditSent := 0
  creditCell := 0
  creditMr := none
  remRingCookie := 0
  remCreditCookie := 0
  remSlots := 0
  remSlotSize := 0
  txHead := 0
  txTail := 0
  txStage _ := RingSlot.zero
  creditTx := 0

/-- `rds_reg_internal` on the endpoint's socket. -/
def Ep.regInternal (env : Env) (ep : Ep) (r : Region) : Ep × Option RdsMr :=
  match rdsRegInternal env ep.domain ep.cfg.sock r with
  | (dom, .error _) => ({ ep with domain := dom }, none)
  | (dom, .ok mr) => ({ ep with domain := dom }, some mr)

/-- `rds_mr_put` of a registration that may be missing. -/
def Ep.mrPut (ep : Ep) (mr : Option RdsMr) : Ep :=
  match mr with
  | none => ep
  | some mr => { ep with domain := rdsMrPut ep.domain mr.handle }

/-- The registration part of `rds_peer_create`: the ring and the credit cell are
both registered, and a peer that lacks either is disabled. -/
def rdsPeerRegister (env : Env) (ep : Ep) (p : Peer) (ring credit : ℕ) : Ep × Peer :=
  let bytes := ep.cfg.geom.slots.toNat * ep.cfg.geom.slotSize.toNat
  let (ep, ringMr) := ep.regInternal env ⟨ring, bytes⟩
  let (ep, creditMr) := ep.regInternal env ⟨credit, 8⟩
  if ringMr.isSome ∧ creditMr.isSome then
    (ep, { p with rxRingMr := ringMr, creditMr := creditMr })
  else ((ep.mrPut ringMr).mrPut creditMr, { p with state := .disabled })

/-- `rds_peer_create`. -/
def rdsPeerCreate (env : Env) (ep : Ep) (addr : UInt64) : Ep × Option Peer :=
  if ep.cfg.ringMaxPeers ≤ ep.peers.length then (ep, none)
  else match rdsAvAddr ep.cfg addr with
    | none => (ep, none)
    | some sa =>
      -- the record, the ring, the staging area and the credit cell
      let t := ep.tick
      let ep := { ep with tick := t + 4 }
      if env.alloc t && env.alloc (t + 1) && env.alloc (t + 2) && env.alloc (t + 3) then
        let (ep, p) := rdsPeerRegister env ep (Peer.blank addr sa) (env.heap (t + 1))
          (env.heap (t + 3))
        ({ ep with peers := p :: ep.peers }, some p)
      else (ep, none)

/-- Find a peer, or create it. -/
def rdsPeerGet (env : Env) (ep : Ep) (addr : UInt64) : Ep × Option Peer :=
  match rdsPeerFind ep addr with
  | some p => (ep, some p)
  | none => rdsPeerCreate env ep addr

/-! ## Handshake -/

/-- The header of a `RING_REQ` or `RING_ACK`. -/
def ctrlHdr (op : UInt8) : Hdr := { Hdr.blank op with size := UInt64.ofNat RingInfo.size }

/-- `rds_ring_send_ctrl`: the socket's answer is ignored. Only a peer whose ring
is registered is ever advertised. -/
def rdsRingSendCtrl (env : Env) (ep : Ep) (p : Peer) (op : UInt8) : Ep :=
  match p.rxRingMr, p.creditMr with
  | some ring, some credit =>
    let info : RingInfo :=
      ⟨ring.cookie, credit.cookie, ep.cfg.geom.slots, ep.cfg.geom.slotSize⟩
    (ep.sendDgram env p.sa ((ctrlHdr op).encode ++ info.encode)).1
  | _, _ => ep

/-- `rds_ring_adopt`. -/
def rdsRingAdopt (g : RingGeom) (p : Peer) (info : RingInfo) : Option Peer :=
  if info.slots ≠ g.slots ∨ info.slotSize ≠ g.slotSize then none
  else some { p with
    remRingCookie := info.ringCookie
    remCreditCookie := info.creditCookie
    remSlots := info.slots
    remSlotSize := info.slotSize }

/-- `rds_ring_handle_ctrl`. -/
def rdsRingHandleCtrl (env : Env) (ep : Ep) (hdr : Hdr) (payload : List UInt8)
    (srcFi : UInt64) : Ep :=
  if !ep.cfg.eagerRdma ∨ payload.length < RingInfo.size ∨ srcFi = fiAddrNotavail then ep
  else match rdsPeerGet env ep srcFi with
    | (ep, none) => ep
    | (ep, some p) =>
      if p.state = .disabled ∨ p.rxRingMr = none ∨ p.creditMr = none then ep
      else match rdsRingAdopt ep.cfg.geom p (RingInfo.decode payload) with
        | none => ep.setPeer { p with state := .disabled }
        | some p =>
          let ep := if hdr.op = rdsOpRingReq then rdsRingSendCtrl env ep p rdsOpRingAck
            else ep
          ep.setPeer { p with state := .ready }

/-! ## Sending -/

namespace Peer

/-- `rds_ring_refresh_credit`. -/
def refreshCredit (p : Peer) : Peer :=
  if p.txTail < p.creditCell then { p with txTail := p.creditCell } else p

/-- Whether every slot of the peer's ring may still be unread. -/
def full (p : Peer) : Bool := p.remSlots.toUInt64 ≤ p.txHead - p.txTail

/-- The index of the next slot to produce. -/
def txIdx (p : Peer) : ℕ := (p.txHead % p.remSlots.toUInt64).toNat

/-- The generation stamp of the next slot to produce. -/
def txGen (p : Peer) : UInt32 := (p.txHead / p.remSlots.toUInt64).toUInt32 + 1

/-- The slot a message is staged in. -/
def fillSlot (p : Peer) (op flags : UInt8) (tag data : UInt64) (payload : List UInt8) :
    RingSlot where
  len := UInt32.ofNat payload.length
  flags := flags
  op := op
  tag := tag
  data := data
  ack := p.rxHead
  payload := payload
  gen := p.txGen

/-- Stage a slot at the index of the next slot to produce. -/
def stage (p : Peer) (slot : RingSlot) : Peer :=
  { p with txStage := Function.update p.txStage p.txIdx slot }

/-- The write that places a staged slot in the peer's ring. -/
def slotWrite (p : Peer) (slot : RingSlot) : RdmaOp where
  dst := p.sa
  cookie := p.remRingCookie
  remoteOff := UInt64.ofNat p.txIdx * p.remSlotSize.toUInt64
  loc := .stage p.txIdx slot
  isWrite := true
  notify := false
  token := 0
  rts := none

/-- The write that returns credit to the peer. -/
def creditWrite (p : Peer) : RdmaOp where
  dst := p.sa
  cookie := p.remCreditCookie
  remoteOff := 0
  loc := .credit p.creditTx
  isWrite := true
  notify := false
  token := 0
  rts := none

end Peer

/-- The flag byte of a message on the wire. -/
def rdsHdrFlags (tagged : Bool) (flags : UInt64) : UInt8 :=
  (if tagged then rdsHfTagged else 0) ||| (if hasFlag flags fiRemoteCqData then rdsHfCqData else 0)

/-- The flags of a send completion. -/
def txFlags (tagged : Bool) : UInt64 := fiSend ||| (if tagged then fiTagged else fiMsg)

/-- `rds_ring_send` to a peer whose handshake is not finished: kick it once, give
up after the deadline, and otherwise ask the caller to retry. -/
def rdsRingConnect (env : Env) (ep : Ep) (p : Peer) : Ep × Ret :=
  let (ep, p) := if p.state = .none then
      let ep := rdsRingSendCtrl env ep p rdsOpRingReq
      ({ ep with tick := ep.tick + 1 },
        { p with state := PeerState.connecting, connectStartMs := env.now ep.tick })
    else (ep, p)
  let now := env.now ep.tick
  let ep := { ep with tick := ep.tick + 1 }
  if rdsRingConnectTimeoutMs < now - p.connectStartMs then
    (ep.setPeer { p with state := .disabled }, .err fiEnosys)
  else (ep.setPeer p, .err fiEagain)

/-- `rds_ring_send` to a `READY` peer: one slot, one write. -/
def rdsRingPlace (env : Env) (ep : Ep) (p : Peer) (payload : List UInt8)
    (tag data : UInt64) (context : ℕ) (flags : UInt64) (tagged genComp : Bool)
    (op : UInt8) : Ep × Ret :=
  let p := p.refreshCredit
  if p.full then (ep.setPeer p, .err fiEagain)
  else
    let slot := p.fillSlot op (rdsHdrFlags tagged flags) tag data payload
    let write := p.slotWrite slot
    let p := p.stage slot
    match rdsPostRdma env ep write with
    | (ep, .err e) => (ep.setPeer p, .err e)
    | (ep, .ok) =>
      let ep := ep.setPeer { p with txHead := p.txHead + 1 }
      (if genComp then rdsCqWriteTx ep context (txFlags tagged) payload.length 0 else ep,
        .ok)

/-- `rds_ring_send`. The payload is what the source's scatter list holds. -/
def rdsRingSend (env : Env) (ep : Ep) (payload : List UInt8) (dest : UInt64)
    (tag data : UInt64) (context : ℕ) (flags : UInt64) (tagged genComp : Bool)
    (op : UInt8) : Ep × Ret :=
  if !ep.cfg.eagerRdma then (ep, .err fiEnosys)
  else if ep.cfg.geom.payload < payload.length then (ep, .err fiEnosys)
  else match rdsPeerGet env ep dest with
    | (ep, none) => (ep, .err fiEnosys)
    | (ep, some p) =>
      let ep := ep.touchPeer p
      if p.state = .ready then
        rdsRingPlace env ep p payload tag data context flags tagged genComp op
      else if p.state = .disabled then (ep, .err fiEnosys)
      else rdsRingConnect env ep p
