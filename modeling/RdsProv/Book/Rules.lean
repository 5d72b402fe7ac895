import RdsProv.Endpoint
import Mathlib.Data.Multiset.Count
import Mathlib.Data.Multiset.MapFold

/-!
# The books of rendezvous

What an endpoint has to keep straight about rendezvous transfers, apart from how
the code keeps it: the pending operations, the RDMA operations in flight, the
parked ones, the requests that wait for a receive, the requests and `FIN`s under
way. A `Book` holds these as bags, since none of the results depends on the order
of the lists they come from.

`Book.Rule` is the protocol: a rewriting system on books in which each rule does
one thing – a receive is opened, a read issued, parked or failed, an
acknowledgement counted, a receive finalized, a `FIN` sent, parked or lost. What
is in the middle of being handled is held in `hand`, and the operation being
worked on is `cur`; both are empty between calls.

The rules describe only what is meant to happen. That the endpoint never does
anything else, as long as its ids have not wrapped, is the refinement proved in
`RdsProv.Book.Refine`.
-/

/-- A request or a `FIN` on its way. -/
inductive Ctl where
  | rts (id : UInt64)
  | fin (peer : SockAddr) (id : UInt64)
  deriving DecidableEq

/-- What an endpoint holds while it handles a call. -/
inductive Hand where
  /-- A request that arrived, or was taken off an unexpected list. -/
  | rts (src : SockAddr) (id : UInt64)
  /-- A `FIN` that arrived. -/
  | fin (id : UInt64)
  /-- A `FIN` to be sent. -/
  | owe (peer : SockAddr) (id : UInt64)
  deriving DecidableEq

/-- The rendezvous bookkeeping of an endpoint. -/
structure Book where
  pending : Multiset Pending
  inflight : Multiset RdmaOp
  parked : Multiset Deferred
  /-- The sources and ids of the unexpected requests. -/
  queue : Multiset (SockAddr × UInt64)
  sent : Multiset Ctl
  log : Multiset Event
  opId : UInt64
  idsGiven : ℕ
  hand : Multiset Hand
  cur : Option UInt64

/-! ## Who owns what -/

/-- The two records are of one operation at different times. -/
structure Pending.Same (p q : Pending) : Prop where
  id : q.id = p.id
  type : q.type = p.type
  peer : q.peer = p.peer
  peerId : q.peerId = p.peerId

theorem Pending.Same.refl (p : Pending) : p.Same p := ⟨rfl, rfl, rfl, rfl⟩

/-- An RDMA operation in flight belongs to a pending operation: as a read of a
rendezvous receive, made for its request, or as a part of a one-sided transfer. -/
def RdmaOp.Owner (op : RdmaOp) (p : Pending) : Prop :=
  p.id = op.token ∧ ((p.type = .rndzvRx ∧ op.dst = p.peer ∧ op.rts = some p.peerId)
    ∨ (p.type = .rma ∧ op.rts = none))

/-- The id a parked read belongs to. -/
def Deferred.readId? : Deferred → Option UInt64
  | .read _ _ _ _ id _ => some id
  | .fin _ _ => none

/-- A parked read belongs to a rendezvous receive. -/
def Deferred.Owner (d : Deferred) (p : Pending) : Prop :=
  ∃ cookie remoteOff liov, d = .read p.peer cookie remoteOff liov p.id p.peerId
    ∧ p.type = .rndzvRx

theorem RdmaOp.Owner.same {op : RdmaOp} {p q : Pending} (h : op.Owner p) (hsame : p.Same q) :
    op.Owner q := by
  unfold RdmaOp.Owner
  rw [hsame.id, hsame.type, hsame.peer, hsame.peerId]
  exact h

theorem RdmaOp.Owner.type_ne {op : RdmaOp} {p : Pending} (h : op.Owner p) :
    p.type ≠ .rndzvTx := by
  rcases h.2 with ⟨h, -⟩ | ⟨h, -⟩
  · rw [h]
    decide
  · rw [h]
    decide

theorem Deferred.Owner.same {d : Deferred} {p q : Pending} (h : d.Owner p) (hsame : p.Same q) :
    d.Owner q := by
  unfold Deferred.Owner
  rw [hsame.id, hsame.type, hsame.peer, hsame.peerId]
  exact h

theorem Deferred.Owner.type_eq {d : Deferred} {p : Pending} (h : d.Owner p) :
    p.type = .rndzvRx := by
  obtain ⟨_, _, _, _, htype⟩ := h
  exact htype

theorem Deferred.Owner.readId? {d : Deferred} {p : Pending} (h : d.Owner p) :
    d.readId? = some p.id := by
  obtain ⟨cookie, remoteOff, liov, rfl, -⟩ := h
  rfl

theorem RdmaOp.Owner.eq_id {op : RdmaOp} {p : Pending} (h : op.Owner p) (i : UInt64)
    (htoken : op.token = i) : i = p.id :=
  htoken.symm.trans h.1.symm

theorem Deferred.Owner.eq_id {d : Deferred} {p : Pending} (h : d.Owner p) (i : UInt64)
    (hid : d.readId? = some i) : i = p.id :=
  Option.some.inj (hid.symm.trans h.readId?)

namespace Book

/-- The RDMA operations in flight under an id. -/
def outstanding (b : Book) (id : UInt64) : ℕ := b.inflight.countP (fun op => op.token = id)

/-- The reads parked under an id. -/
def parkedReads (b : Book) (id : UInt64) : ℕ := b.parked.countP (fun d => d.readId? = some id)

/-- A new id is drawn. -/
def drawn (b : Book) : Book :=
  { b with opId := succId b.opId, idsGiven := b.idsGiven + 1 }

/-! ## The rules -/

/-- **The rendezvous protocol of one endpoint.** Only if `lossy` may a `FIN` or a
request be lost; if `reports`, a finalized receive reports its error. -/
inductive Rule (lossy reports : Prop) : Book → Book → Prop
  /-- An id is drawn for an operation that comes to nothing. -/
  | draw {b : Book} (hids : b.idsGiven + 1 < 2 ^ 64) : Rule lossy reports b b.drawn
  /-- A request meets a receive. -/
  | openRx {b : Book} {p : Pending} {hand : Multiset Hand} (truncated : Bool)
      (hids : b.idsGiven + 1 < 2 ^ 64) (hcur : b.cur = none)
      (hhand : b.hand = .rts p.peer p.peerId ::ₘ hand)
      (hid : p.id = succId b.opId) (htype : p.type = .rndzvRx)
      (hzero : p.segRemaining = 0 ∧ p.segDeferred = 0)
      (herror : p.error ≠ 0 ↔ truncated = true) :
      Rule lossy reports b { b.drawn with
        pending := p ::ₘ b.pending
        log := .rxOpen p.id truncated ::ₘ b.log
        hand := hand
        cur := some p.id }
  /-- A one-sided transfer starts. -/
  | openRma {b : Book} {p : Pending} (hids : b.idsGiven + 1 < 2 ^ 64) (hcur : b.cur = none)
      (hid : p.id = succId b.opId) (htype : p.type = .rma) (hzero : p.segRemaining = 0) :
      Rule lossy reports b { b.drawn with pending := p ::ₘ b.pending, cur := some p.id }
  /-- A request goes out. -/
  | openTx {b : Book} {p : Pending} (hids : b.idsGiven + 1 < 2 ^ 64)
      (hid : p.id = succId b.opId) (htype : p.type = .rndzvTx) :
      Rule lossy reports b { b.drawn with
        pending := p ::ₘ b.pending
        sent := .rts p.id ::ₘ b.sent
        log := .txOpen p.id ::ₘ b.log }
  /-- An RDMA operation is issued. -/
  | issue {b : Book} {p q : Pending} {ps : Multiset Pending} (op : RdmaOp)
      (hp : b.pending = p ::ₘ ps) (hcur : b.cur = some p.id) (howner : op.Owner p)
      (hbound : p.segRemaining.toNat + p.segDeferred.toNat + 1 < 2 ^ 32) (hsame : p.Same q)
      (hrem : q.segRemaining = p.segRemaining + 1) (hdef : q.segDeferred = p.segDeferred)
      (herror : q.error = p.error) :
      Rule lossy reports b { b with pending := q ::ₘ ps, inflight := op ::ₘ b.inflight }
  /-- A read is parked. -/
  | park {b : Book} {p q : Pending} {ps : Multiset Pending} (d : Deferred)
      (hp : b.pending = p ::ₘ ps) (hcur : b.cur = some p.id) (howner : d.Owner p)
      (hbound : p.segRemaining.toNat + p.segDeferred.toNat + 1 < 2 ^ 32) (hsame : p.Same q)
      (hrem : q.segRemaining = p.segRemaining) (hdef : q.segDeferred = p.segDeferred + 1)
      (herror : q.error = p.error) :
      Rule lossy reports b { b with pending := q ::ₘ ps, parked := d ::ₘ b.parked }
  /-- A read can be neither issued nor parked. -/
  | fail {b : Book} {p q : Pending} {ps : Multiset Pending}
      (hp : b.pending = p ::ₘ ps) (hcur : b.cur = some p.id) (htype : p.type = .rndzvRx)
      (hsame : p.Same q) (hrem : q.segRemaining = p.segRemaining)
      (hdef : q.segDeferred = p.segDeferred) (herror : q.error ≠ 0) :
      Rule lossy reports b { b with pending := q ::ₘ ps, log := .readFail p.id ::ₘ b.log }
  /-- An operation in flight is notified. -/
  | ack {b : Book} {p q : Pending} {ps : Multiset Pending} {op : RdmaOp}
      {ops : Multiset RdmaOp} (ok : Bool)
      (hp : b.pending = p ::ₘ ps) (hop : b.inflight = op ::ₘ ops) (hcur : b.cur = none)
      (howner : op.Owner p) (hsame : p.Same q)
      (hrem : q.segRemaining = p.segRemaining - 1) (hdef : q.segDeferred = p.segDeferred)
      (herror : q.error ≠ 0 ↔ p.error ≠ 0 ∨ ok = false) :
      Rule lossy reports b { b with
        pending := q ::ₘ ps
        inflight := ops
        log := if p.type = .rndzvRx then .readAck p.id ok ::ₘ b.log else b.log
        cur := some p.id }
  /-- A parked read is issued after all. -/
  | reissue {b : Book} {p q : Pending} {ps : Multiset Pending} {d : Deferred}
      {ds : Multiset Deferred} (op : RdmaOp)
      (hp : b.pending = p ::ₘ ps) (hd : b.parked = d ::ₘ ds) (hcur : b.cur = none)
      (howner : d.Owner p) (howner' : op.Owner p) (hsame : p.Same q)
      (hrem : q.segRemaining = p.segRemaining + 1) (hdef : q.segDeferred = p.segDeferred - 1)
      (herror : q.error = p.error) :
      Rule lossy reports b { b with
        pending := q ::ₘ ps
        inflight := op ::ₘ b.inflight
        parked := ds
        cur := some p.id }
  /-- A parked read fails after all. -/
  | failParked {b : Book} {p q : Pending} {ps : Multiset Pending} {d : Deferred}
      {ds : Multiset Deferred}
      (hp : b.pending = p ::ₘ ps) (hd : b.parked = d ::ₘ ds) (hcur : b.cur = none)
      (howner : d.Owner p) (hsame : p.Same q)
      (hrem : q.segRemaining = p.segRemaining) (hdef : q.segDeferred = p.segDeferred - 1)
      (herror : q.error ≠ 0) :
      Rule lossy reports b { b with
        pending := q ::ₘ ps
        parked := ds
        log := .readFail p.id ::ₘ b.log
        cur := some p.id }
  /-- The operation worked on still waits for something. -/
  | settle {b : Book} {p : Pending} {ps : Multiset Pending}
      (hp : b.pending = p ::ₘ ps) (hcur : b.cur = some p.id)
      (hlive : p.type = .rndzvRx → p.segRemaining ≠ 0 ∨ p.segDeferred ≠ 0) :
      Rule lossy reports b { b with cur := none }
  /-- A one-sided transfer was cut short. -/
  | cutShort {b : Book} {p q : Pending} {ps : Multiset Pending}
      (hp : b.pending = p ::ₘ ps) (hcur : b.cur = some p.id) (htype : p.type = .rma)
      (hsame : p.Same q) (hrem : q.segRemaining = p.segRemaining) :
      Rule lossy reports b { b with pending := q ::ₘ ps }
  /-- A receive that waits for nothing more is finalized, and owes a `FIN`. -/
  | finalize {b : Book} {p : Pending} {ps : Multiset Pending} (cqes : List CqEntry)
      (hp : b.pending = p ::ₘ ps) (hcur : b.cur = some p.id) (htype : p.type = .rndzvRx)
      (hzero : p.segRemaining = 0 ∧ p.segDeferred = 0)
      (hreport : reports → ((∃ c ∈ cqes, c.err ≠ 0) ↔ p.error ≠ 0)) :
      Rule lossy reports b { b with
        pending := ps
        log := .rxDone p.id cqes ::ₘ b.log
        hand := .owe p.peer p.peerId ::ₘ b.hand
        cur := none }
  /-- A one-sided transfer that waits for nothing more ends. -/
  | endRma {b : Book} {p : Pending} {ps : Multiset Pending}
      (hp : b.pending = p ::ₘ ps) (hcur : b.cur = some p.id) (htype : p.type = .rma)
      (hzero : p.segRemaining = 0) :
      Rule lossy reports b { b with pending := ps, cur := none }
  | sendFin {b : Book} {peer : SockAddr} {id : UInt64} {hand : Multiset Hand}
      (hhand : b.hand = .owe peer id ::ₘ hand) :
      Rule lossy reports b { b with sent := .fin peer id ::ₘ b.sent, hand := hand }
  | parkFin {b : Book} {peer : SockAddr} {id : UInt64} {hand : Multiset Hand}
      (hhand : b.hand = .owe peer id ::ₘ hand) :
      Rule lossy reports b { b with parked := .fin peer id ::ₘ b.parked, hand := hand }
  | loseFin {b : Book} {peer : SockAddr} {id : UInt64} {hand : Multiset Hand} (hlossy : lossy)
      (hhand : b.hand = .owe peer id ::ₘ hand) :
      Rule lossy reports b { b with log := .finLost peer id ::ₘ b.log, hand := hand }
  /-- A parked `FIN` is tried again. -/
  | retryFin {b : Book} {peer : SockAddr} {id : UInt64} {ds : Multiset Deferred}
      (hd : b.parked = .fin peer id ::ₘ ds) :
      Rule lossy reports b { b with parked := ds, hand := .owe peer id ::ₘ b.hand }
  /-- The `FIN` of a send arrives. -/
  | finIn {b : Book} {p : Pending} {ps : Multiset Pending} {hand : Multiset Hand}
      (hhand : b.hand = .fin p.id ::ₘ hand) (hp : b.pending = p ::ₘ ps)
      (htype : p.type = .rndzvTx) :
      Rule lossy reports b { b with
        pending := ps, log := .txDone p.id ::ₘ b.log, hand := hand }
  /-- A `FIN` arrives that belongs to no send. -/
  | stray {b : Book} {id : UInt64} {hand : Multiset Hand}
      (hhand : b.hand = .fin id ::ₘ hand)
      (hnone : ∀ p ∈ b.pending, p.type = .rndzvTx → p.id ≠ id) :
      Rule lossy reports b { b with hand := hand }
  /-- A request finds no receive. -/
  | enqueue {b : Book} {src : SockAddr} {id : UInt64} {hand : Multiset Hand}
      (hhand : b.hand = .rts src id ::ₘ hand) :
      Rule lossy reports b { b with queue := (src, id) ::ₘ b.queue, hand := hand }
  /-- A receive finds a request. -/
  | take {b : Book} {src : SockAddr} {id : UInt64} {queue : Multiset (SockAddr × UInt64)}
      (hqueue : b.queue = (src, id) ::ₘ queue) :
      Rule lossy reports b { b with queue := queue, hand := .rts src id ::ₘ b.hand }
  /-- A request is answered with a `FIN` at once. -/
  | refuse {b : Book} {src : SockAddr} {id : UInt64} {hand : Multiset Hand}
      (hhand : b.hand = .rts src id ::ₘ hand) :
      Rule lossy reports b { b with hand := .owe src id ::ₘ hand }
  | drop {b : Book} {src : SockAddr} {id : UInt64} {hand : Multiset Hand} (hlossy : lossy)
      (hhand : b.hand = .rts src id ::ₘ hand) :
      Rule lossy reports b { b with hand := hand }

end Book
