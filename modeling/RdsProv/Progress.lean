import RdsProv.Receive

/-!
# Progress

The progress engine: retry what was parked, poll the rings of `READY` peers,
then drain the socket. A slot is consumed when its generation word is the one
the consumer expects next; its `ack` field and the credit writes tell the
producer how far the consumer is.
-/

/-! ## Polling a ring -/

namespace Peer

/-- The slot `rds_ring_poll_peer` looks at, if it has fully arrived. -/
def nextSlot (slots : UInt32) (p : Peer) : Option RingSlot :=
  let slot := p.rxRing (p.rxHead % slots.toUInt64).toNat
  if slot.gen = (p.rxHead / slots.toUInt64).toUInt32 + 1 then some slot else none

/-- Absorb the credit a slot carries. -/
def absorbAck (p : Peer) (ack : UInt64) : Peer :=
  if p.txTail < ack then { p with txTail := ack } else p

/-- Whether enough slots were consumed to return credit in the middle of a
pass. -/
def creditDue (slots : UInt32) (p : Peer) : Bool :=
  (slots / 2).toUInt64 ≤ p.rxHead - p.rxCreditSent

end Peer

/-- `rds_ring_return_credit`. -/
def rdsRingReturnCredit (env : Env) (ep : Ep) (p : Peer) : Ep :=
  let p := { p with creditTx := p.rxHead }
  match rdsPostRdma env ep p.creditWrite with
  | (ep, .ok) => ep.setPeer { p with rxCreditSent := p.rxHead }
  | (ep, .err _) => ep.setPeer p

/-- `rds_ring_deliver`. -/
def rdsRingDeliver (env : Env) (ep : Ep) (sa : SockAddr) (addr : UInt64)
    (slot : RingSlot) : Ep :=
  let payload := slot.payload.take slot.len.toNat
  if slot.op = rdsOpEager then
    let hdr : Hdr := { Hdr.blank rdsOpEager with
      flags := slot.flags
      tag := slot.tag
      data := slot.data
      size := slot.len.toUInt64 }
    rdsHandleInbound env ep hdr payload sa addr
  else if slot.len.toNat < rdsHdrSize then ep
  else rdsHandleInbound env ep (Hdr.decode payload) (payload.drop rdsHdrSize) sa addr

/-- One round of `rds_ring_poll_peer`, if there is a slot to consume. The record
is looked up again after the delivery, which may have changed it. -/
def rdsRingPollSlot (env : Env) (ep : Ep) (addr : UInt64) : Option Ep :=
  let slots := ep.cfg.geom.slots
  match rdsPeerFind ep addr with
  | none => none
  | some p =>
    match p.nextSlot slots with
    | none => none
    | some slot =>
      let ep := rdsRingDeliver env (ep.setPeer (p.absorbAck slot.ack)) p.sa p.addr slot
      match rdsPeerFind ep addr with
      | none => some ep
      | some p =>
        let p := { p with rxHead := p.rxHead + 1 }
        let ep := ep.setPeer p
        some (if p.creditDue slots then rdsRingReturnCredit env ep p else ep)

/-- The loop of `rds_ring_poll_peer`. The ring does not change during a pass,
so a pass consumes each slot at most once. -/
def rdsRingPollLoop (env : Env) (addr : UInt64) : ℕ → Ep → Bool → Ep × Bool
  | 0, ep, drained => (ep, drained)
  | fuel + 1, ep, drained =>
    match rdsRingPollSlot env ep addr with
    | none => (ep, drained)
    | some ep => rdsRingPollLoop env addr fuel ep true

/-- The end of `rds_ring_poll_peer`: a pass that consumed something leaves no
credit behind. -/
def rdsRingFlushCredit (env : Env) (ep : Ep) (addr : UInt64) : Ep :=
  match rdsPeerFind ep addr with
  | none => ep
  | some p => if p.rxHead ≠ p.rxCreditSent then rdsRingReturnCredit env ep p else ep

/-- `rds_ring_poll_peer`. -/
def rdsRingPollPeer (env : Env) (ep : Ep) (addr : UInt64) : Ep :=
  let (ep, drained) := rdsRingPollLoop env addr ep.cfg.geom.slots.toNat ep false
  if drained then rdsRingFlushCredit env ep addr else ep

/-- `rds_ring_progress`. -/
def rdsRingProgress (env : Env) (ep : Ep) : Ep :=
  if !ep.cfg.eagerRdma then ep
  else (ep.peers.map (·.addr)).foldl (fun ep addr =>
    match rdsPeerFind ep addr with
    | none => ep
    | some p => if p.state = .ready then rdsRingPollPeer env ep addr else ep) ep

/-! ## Draining the socket -/

/-- What one `recvmsg` returns: notifications, and a datagram. Of the operation that a
notification is about the code sees the token only. -/
structure RecvMsg where
  notifies : List (RdmaOp × ℤ)
  src : SockAddr
  bytes : List UInt8
  /-- `MSG_TRUNC`. -/
  truncated : Bool

/-- `RDS_PROGRESS_BUDGET`. -/
abbrev rdsProgressBudget : ℕ := 256

/-- A datagram taken off the socket. -/
def rdsRecvDgram (env : Env) (ep : Ep) (src : SockAddr) (bytes : List UInt8) : Ep :=
  if bytes.length < rdsHdrSize then ep
  else rdsHandleInbound env ep (Hdr.decode bytes) (bytes.drop rdsHdrSize) src
    (ofiIpAvGetFiAddr ep.cfg src)

/-- `rds_reap_notifies`. An operation that is notified is in flight no more. -/
def rdsReapNotifies (env : Env) (ep : Ep) (msg : RecvMsg) : Ep :=
  msg.notifies.foldl (fun ep n =>
    rdsHandleRdmaNotify env { ep with inflight := ep.inflight.erase n.1 } n.1.token n.2) ep

/-- One round of the receive loop of `rds_ep_progress`: notifications first. -/
def rdsRecvMsg (env : Env) (ep : Ep) (msg : RecvMsg) : Ep :=
  let ep := rdsReapNotifies env ep msg
  if msg.truncated then ep else rdsRecvDgram env ep msg.src msg.bytes

/-- `rds_ep_progress`, given what the socket has to offer until it has no more. -/
def rdsEpProgress (env : Env) (ep : Ep) (msgs : List RecvMsg) : Ep :=
  let ep := (rdsProgressDeferred env ep).1
  let ep := rdsRingProgress env ep
  (msgs.take rdsProgressBudget).foldl (rdsRecvMsg env) ep
