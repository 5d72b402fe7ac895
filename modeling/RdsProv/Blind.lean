import RdsProv.Machine
import RdsProv.Matching

/-!
# What does not look at the sources receives name

A receive names the source it wants messages from. Only the two scans look at it; every
other part of the provider does the same to two endpoints that differ in these sources
alone. `Ep.blind` forgets them, in the receives that wait and in the pairings that were
made, and each function is shown to commute with it: `f ep.blind = (f ep).blind`, or
`blinded (f ep)` where it returns something next to the endpoint.

The lemmas follow the calls from the socket up. The scans themselves, and what calls them,
are not among them: there the sources do matter.
-/

/-- A receive without the source it names. -/
def RxEntry.blind (r : RxEntry) : RxEntry := { r with addr := fiAddrUnspec }

/-- An event without the source its receive names. -/
def Event.blind : Event → Event
  | .paired m r => .paired m r.blind
  | e => e

namespace Ep

/-- **An endpoint without the sources its receives name.** -/
def blind (ep : Ep) : Ep :=
  { ep with
    posted := fun k => (ep.posted k).map RxEntry.blind
    trace := ep.trace.map Event.blind }

/-- The same, next to what a call returns. -/
def blinded {α : Type} (r : Ep × α) : Ep × α := (r.1.blind, r.2)

theorem blinded_mk {α : Type} (ep : Ep) (a : α) : blinded (ep, a) = (ep.blind, a) := rfl

section Blind

variable (env : Env) (ep : Ep)

/-- An event that is no pairing names no receive. -/
theorem blind_log {e : Event} (h : e.pairing? = none) : ep.blind.log e = (ep.log e).blind := by
  have he : e.blind = e := by
    cases e with
    | paired m r => cases h
    | _ => rfl
  unfold log blind
  rw [List.map_append, List.map_singleton, he]

/-! ## The socket -/

theorem blind_sendDgram (dst : SockAddr) (bytes : List UInt8) :
    ep.blind.sendDgram env dst bytes = blinded (ep.sendDgram env dst bytes) := by
  have h : ep.blind.sendmsg env (.dgram dst bytes) = blinded (ep.sendmsg env (.dgram dst bytes)) :=
    rfl
  unfold sendDgram
  rw [h]
  generalize ep.sendmsg env (.dgram dst bytes) = r
  obtain ⟨e, _ | err⟩ := r
  · rfl
  · rfl

/-- A transfer is refused for the number of its buffers, or by the socket. -/
theorem blind_postRdma (op : RdmaOp) :
    rdsPostRdma env ep.blind op = blinded (rdsPostRdma env ep op) := by
  have h : ep.blind.sendmsg env (.rdma op) = blinded (ep.sendmsg env (.rdma op)) := rfl
  unfold rdsPostRdma
  split
  · rfl
  rw [h]
  generalize ep.sendmsg env (.rdma op) = r
  obtain ⟨e, _ | err⟩ := r
  · dsimp only [blinded_mk]
    split
    · rfl
    · rfl
  · rfl

/-- There is memory to park a `FIN` or there is not. -/
theorem blind_deferFin (peer : SockAddr) (id : UInt64) :
    rdsDeferFin env ep.blind peer id = (rdsDeferFin env ep peer id).blind := by
  have h : ep.blind.malloc env = blinded (ep.malloc env) := rfl
  unfold rdsDeferFin
  rw [h]
  generalize ep.malloc env = r
  obtain ⟨e, _ | _⟩ := r
  · exact blind_log e rfl
  · rfl

/-- A `FIN` goes to where the request came from. -/
theorem blind_sendFin (peer : SockAddr) (id : UInt64) :
    rdsSendFin env ep.blind peer id = (rdsSendFin env ep peer id).blind := by
  unfold rdsSendFin rdsSendFinRaw
  rw [blind_sendDgram]
  generalize ep.sendDgram env peer (finHdr id).encode = r
  obtain ⟨e, _ | err⟩ := r
  · rfl
  dsimp only [blinded_mk]
  rw [apply_ite blind, blind_deferFin, blind_log e rfl]

/-! ## Completions -/

theorem blind_cqWriteTx (context : ℕ) (flags : UInt64) (len err : ℕ) :
    rdsCqWriteTx ep.blind context flags len err
      = (rdsCqWriteTx ep context flags len err).blind := by
  rw [rdsCqWriteTx_eq, rdsCqWriteTx_eq]
  rfl

/-- A completion reports the source of the message, not the one asked for. -/
theorem blind_cqWriteRx (context : ℕ) (flags : UInt64) (len : ℕ) (data tag src : UInt64)
    (err : ℕ) :
    rdsCqWriteRx ep.blind context flags len data tag src err
      = (rdsCqWriteRx ep context flags len data tag src err).blind := by
  rw [rdsCqWriteRx_eq, rdsCqWriteRx_eq]
  rfl

/-- What is given back, counted and reported is in the record of the operation. -/
theorem blind_pendingComplete (p : Pending) :
    rdsPendingComplete ep.blind p = (rdsPendingComplete ep p).blind := by
  rw [rdsPendingComplete_eq, rdsPendingComplete_eq]
  unfold blind
  dsimp only
  rw [List.map_append, apply_ite (List.map Event.blind)]
  rfl

/-- A receive in progress no longer knows which source it was posted for. -/
theorem blind_finalize (p : Pending) :
    rdsRndzvRxFinalize env ep.blind p = (rdsRndzvRxFinalize env ep p).blind := by
  have hfin := blind_sendFin env ep p.peer p.peerId
  rw [rdsRndzvRxFinalize_eq env _ p hfin, rdsRndzvRxFinalize_eq env ep p rfl]
  generalize rdsSendFin env ep p.peer p.peerId = e
  exact blind_log { e with rxCq := e.rxCq ++ p.entries e.cfg } rfl

theorem blind_pendingAlloc (type : PendType) (context : ℕ) (flags : UInt64) :
    rdsPendingAlloc env ep.blind type context flags
      = blinded (rdsPendingAlloc env ep type context flags) := by
  have h : ep.blind.malloc env = blinded (ep.malloc env) := rfl
  unfold rdsPendingAlloc
  rw [h]
  generalize ep.malloc env = r
  obtain ⟨e, _ | _⟩ := r
  · rfl
  · rfl

/-! ## Matched messages -/

/-- A read that is refused is parked, or fails its operation. -/
theorem blind_issueRead (peer : SockAddr) (rts : UInt64) (p : Pending) (r : ReadReq) :
    rdsIssueRead env peer rts (ep.blind, p) r = blinded (rdsIssueRead env peer rts (ep, p) r) := by
  unfold rdsIssueRead
  dsimp only
  rw [blind_postRdma]
  generalize rdsPostRdma env ep (r.op peer p.id rts) = res
  obtain ⟨e, _ | err⟩ := res
  · rfl
  dsimp only [blinded_mk]
  split
  · have h : e.blind.malloc env = blinded (e.malloc env) := rfl
    rw [h]
    generalize e.malloc env = res
    obtain ⟨e, _ | _⟩ := res
    · exact congrArg (·, p.fail fiEnomem) (blind_log e rfl)
    · rfl
  · exact congrArg (·, p.fail err) (blind_log e rfl)

theorem blind_issueReads (peer : SockAddr) (rts : UInt64) (reqs : List ReadReq) (p : Pending) :
    reqs.foldl (rdsIssueRead env peer rts) (ep.blind, p)
      = blinded (reqs.foldl (rdsIssueRead env peer rts) (ep, p)) := by
  induction reqs generalizing ep p with
  | nil => rfl
  | cons r reqs ih =>
    rw [List.foldl_cons, List.foldl_cons, blind_issueRead]
    exact ih _ _

/-- **A started receive** takes over the buffers, the context and the flags of
the posted one, and the source of the message. -/
theorem blind_startRndzvRead (rx : RxEntry) (hdr : Hdr) (segs : List Seg) (peer : SockAddr)
    (src : UInt64) : rdsStartRndzvRead env ep.blind rx.blind hdr segs peer src
      = (rdsStartRndzvRead env ep rx hdr segs peer src).blind := by
  unfold rdsStartRndzvRead
  rw [show rx.blind.context = rx.context from rfl, blind_pendingAlloc]
  generalize rdsPendingAlloc env ep .rndzvRx rx.context (rdsRxFlags hdr) = r
  obtain ⟨e, _ | p⟩ := r
  · dsimp only [blinded_mk]
    rw [blind_sendFin, blind_cqWriteRx]
  · dsimp only [blinded_mk]
    rw [blind_log e rfl, show e.blind.cfg = e.cfg from rfl]
    rw [show p.ofRequest rx.blind hdr peer src e.cfg.rxOpFlags
      = p.ofRequest rx hdr peer src e.cfg.rxOpFlags from rfl,
      show rx.blind.totalLen = rx.totalLen from rfl, show rx.blind.iov = rx.iov from rfl]
    generalize p.ofRequest rx hdr peer src e.cfg.rxOpFlags = p
    rw [blind_issueReads]
    generalize (rndzvReads rx.iov p.len 0 segs).foldl (rdsIssueRead env peer hdr.id) _ = r
    obtain ⟨e, q⟩ := r
    dsimp only [blinded_mk]
    rw [apply_ite blind, blind_finalize]
    rfl

/-- **Once a receive is matched** its source plays no part: the pairing is all that
records it. -/
theorem blind_deliver (rx : RxEntry) (m : Unexp) :
    rdsDeliver env ep.blind rx.blind m = (rdsDeliver env ep rx m).blind := by
  have hlog : ep.blind.log (.paired m rx.blind) = (ep.log (.paired m rx)).blind := by
    unfold log blind
    rw [List.map_append]
    rfl
  by_cases hop : m.hdr.op = rdsOpEager
  · rw [rdsDeliver_eager env _ _ hop, rdsDeliver_eager env _ _ hop]
    exact congrArg (fun e => { e with
      placed := ep.placed ++ (ofiCopyToIov rx.iov 0 m.data).1
      rxCq := ep.rxCq ++ m.entries ep.cfg rx }) hlog
  · rw [rdsDeliver_rendezvous env _ _ hop, rdsDeliver_rendezvous env _ _ hop, hlog,
      blind_startRndzvRead]

/-- A message that no receive takes is kept with the source it has. -/
theorem blind_enqueueUnexp (m : Unexp) (tagged : Bool) :
    rdsEnqueueUnexp env ep.blind m tagged = (rdsEnqueueUnexp env ep m tagged).blind := by
  have hmalloc (e : Ep) : e.blind.malloc env = blinded (e.malloc env) := rfl
  unfold rdsEnqueueUnexp
  rw [hmalloc]
  generalize ep.malloc env = r
  obtain ⟨e, _ | _⟩ := r
  · dsimp only [blinded_mk]
    rw [apply_ite blind, blind_sendFin]
  dsimp only [blinded_mk]
  split
  · rfl
  rw [hmalloc]
  generalize e.malloc env = r
  obtain ⟨e, _ | _⟩ := r
  · exact blind_sendFin env e m.src m.hdr.id
  · rfl

/-! ## Notifications and parked operations -/

/-- **A notification** finds its operation by the id it carries, and what
follows is in the record found. -/
theorem blind_handleRdmaNotify (token : UInt64) (status : ℤ) :
    rdsHandleRdmaNotify env ep.blind token status
      = (rdsHandleRdmaNotify env ep token status).blind := by
  cases hfind : rdsPendingFind ep token with
  | none =>
    unfold rdsHandleRdmaNotify
    rw [show rdsPendingFind ep.blind token = none from hfind, hfind]
  | some p =>
    have hacks : ({ ep.blind with trace := ep.blind.trace ++ p.acks status } : Ep)
        = Ep.blind { ep with trace := ep.trace ++ p.acks status } := by
      unfold Pending.acks
      split
      · exact blind_log ep rfl
      · rw [List.append_nil, List.append_nil]
    rw [rdsHandleRdmaNotify_found env hfind,
      rdsHandleRdmaNotify_found env (show rdsPendingFind ep.blind token = some p from hfind)]
    dsimp only
    rw [hacks]
    generalize ({ ep with trace := ep.trace ++ p.acks status } : Ep) = e
    split
    · rfl
    split
    · rfl
    cases p.type with
    | rma => exact blind_pendingComplete e _
    | rndzvTx => rfl
    | rndzvRx =>
      dsimp only
      rw [apply_ite blind, blind_finalize]
      rfl

/-- A parked read finds its operation in the same way. -/
theorem blind_retryRead (peer : SockAddr) (r : ReadReq) (id rts : UInt64) :
    rdsRetryRead env ep.blind peer r id rts = blinded (rdsRetryRead env ep peer r id rts) := by
  unfold rdsRetryRead
  rw [show rdsPendingFind ep.blind id = rdsPendingFind ep id from rfl]
  cases rdsPendingFind ep id with
  | none => exact congrArg (·, false) (blind_log ep rfl)
  | some p =>
    dsimp only
    rw [blind_postRdma]
    generalize rdsPostRdma env ep (r.op peer id rts) = res
    obtain ⟨e, ret⟩ := res
    have hlog : (if p.segDeferred = 0 then e.blind.log (.underflow id) else e.blind)
        = (if p.segDeferred = 0 then e.log (.underflow id) else e).blind := by
      rw [apply_ite blind, blind_log e rfl]
    cases ret with
    | ok =>
      dsimp only [blinded_mk]
      rw [hlog, blind_finalize, apply_ite blinded, apply_ite blinded]
      rfl
    | err err =>
      dsimp only [blinded_mk]
      rw [hlog, blind_log _ rfl, blind_finalize, apply_ite blinded, apply_ite blinded]
      rfl

theorem blind_retryDeferred (d : Deferred) :
    rdsRetryDeferred env ep.blind d = blinded (rdsRetryDeferred env ep d) := by
  cases d with
  | fin peer id =>
    unfold rdsRetryDeferred rdsSendFinRaw
    dsimp only
    rw [blind_sendDgram]
    generalize ep.sendDgram env peer (finHdr id).encode = r
    obtain ⟨e, _ | err⟩ := r
    · rfl
    dsimp only [blinded_mk]
    split
    · rfl
    · exact congrArg (·, false) (blind_log e rfl)
  | read peer cookie remoteOff liov id rts => exact blind_retryRead env ep peer _ id rts

/-- The walk, by induction on its bound: both queues are the same, and so is
what a visit decides. -/
theorem blind_progressDeferredLoop (fuel : ℕ) (kept : List Deferred) :
    rdsProgressDeferredLoop env fuel kept ep.blind
      = blinded (rdsProgressDeferredLoop env fuel kept ep) := by
  induction fuel generalizing kept ep with
  | zero => rfl
  | succ fuel ih =>
    rw [rdsProgressDeferredLoop, rdsProgressDeferredLoop,
      show ep.blind.deferred = ep.deferred from rfl]
    cases ep.deferred with
    | nil => rfl
    | cons d todo =>
      have h := blind_retryDeferred env { ep with deferred := todo } d
      rw [show ({ ep with deferred := todo } : Ep).blind
        = { ep.blind with deferred := todo } from rfl] at h
      dsimp only
      rw [h]
      generalize rdsRetryDeferred env { ep with deferred := todo } d = r
      obtain ⟨e, stays⟩ := r
      dsimp only [blinded_mk]
      split
      · rfl
      · exact ih e _

theorem blind_progressDeferred :
    rdsProgressDeferred env ep.blind = blinded (rdsProgressDeferred env ep) := by
  unfold rdsProgressDeferred
  rw [show ep.blind.deferred = ep.deferred from rfl, blind_progressDeferredLoop]
  rfl

/-! ## The ring -/

/-- A registration is made in the domain, through the socket. -/
theorem blind_regInternal (r : Region) :
    ep.blind.regInternal env r = blinded (ep.regInternal env r) := by
  unfold regInternal
  rw [show ep.blind.domain = ep.domain from rfl, show ep.blind.cfg = ep.cfg from rfl]
  generalize rdsRegInternal env ep.domain ep.cfg.sock r = res
  obtain ⟨dom, _ | _⟩ := res
  · rfl
  · rfl

theorem blind_mrPut (mr : Option RdsMr) : ep.blind.mrPut mr = (ep.mrPut mr).blind := by
  cases mr with
  | none => rfl
  | some mr => rfl

/-- A peer has both its registrations or neither. -/
theorem blind_peerRegister (p : Peer) (ring credit : ℕ) :
    rdsPeerRegister env ep.blind p ring credit
      = blinded (rdsPeerRegister env ep p ring credit) := by
  obtain ⟨e₁, ringMr, h₁⟩ : ∃ e mr, ep.regInternal env
      ⟨ring, ep.cfg.geom.slots.toNat * ep.cfg.geom.slotSize.toNat⟩ = (e, mr) := ⟨_, _, rfl⟩
  obtain ⟨e₂, creditMr, h₂⟩ : ∃ e mr, e₁.regInternal env ⟨credit, 8⟩ = (e, mr) := ⟨_, _, rfl⟩
  have h₁' := (blind_regInternal env ep _).trans (congrArg blinded h₁)
  have h₂' := (blind_regInternal env e₁ _).trans (congrArg blinded h₂)
  unfold rdsPeerRegister
  simp only [show ep.blind.cfg = ep.cfg from rfl, h₁, h₁', h₂, h₂', blinded_mk, blind_mrPut]
  rw [apply_ite blinded]
  rfl

/-- A peer is created if there is room, an address and memory. -/
theorem blind_peerCreate (addr : UInt64) :
    rdsPeerCreate env ep.blind addr = blinded (rdsPeerCreate env ep addr) := by
  unfold rdsPeerCreate
  rw [apply_ite blinded]
  refine ite_congr rfl (fun _ => rfl) (fun _ => ?_)
  rw [show ep.blind.cfg = ep.cfg from rfl]
  cases rdsAvAddr ep.cfg addr with
  | none => rfl
  | some sa =>
    dsimp only
    rw [apply_ite blinded]
    refine ite_congr rfl (fun _ => ?_) (fun _ => rfl)
    have h := blind_peerRegister env { ep with tick := ep.tick + 4 } (.blank addr sa)
      (env.heap (ep.tick + 1)) (env.heap (ep.tick + 3))
    exact congrArg (fun r : Ep × Peer =>
      (({ r.1 with peers := r.2 :: r.1.peers } : Ep), some r.2)) h

theorem blind_peerGet (addr : UInt64) :
    rdsPeerGet env ep.blind addr = blinded (rdsPeerGet env ep addr) := by
  unfold rdsPeerGet
  rw [show rdsPeerFind ep.blind addr = rdsPeerFind ep addr from rfl, blind_peerCreate]
  cases rdsPeerFind ep addr with
  | none => rfl
  | some p => rfl

theorem blind_ringSendCtrl (p : Peer) (op : UInt8) :
    rdsRingSendCtrl env ep.blind p op = (rdsRingSendCtrl env ep p op).blind := by
  unfold rdsRingSendCtrl
  split
  · exact congrArg Prod.fst (blind_sendDgram env ep p.sa _)
  · rfl

/-- **A handshake** concerns the peer it came from. -/
theorem blind_ringHandleCtrl (hdr : Hdr) (payload : List UInt8) (srcFi : UInt64) :
    rdsRingHandleCtrl env ep.blind hdr payload srcFi
      = (rdsRingHandleCtrl env ep hdr payload srcFi).blind := by
  unfold rdsRingHandleCtrl
  rw [show ep.blind.cfg = ep.cfg from rfl, blind_peerGet]
  split
  · rfl
  generalize rdsPeerGet env ep srcFi = r
  obtain ⟨e, _ | p⟩ := r
  · rfl
  dsimp only [blinded_mk]
  rw [show e.blind.cfg = e.cfg from rfl]
  split
  · rfl
  cases rdsRingAdopt e.cfg.geom p (RingInfo.decode payload) with
  | none => rfl
  | some p =>
    dsimp only
    rw [blind_ringSendCtrl, ← apply_ite blind]
    rfl

/-- A peer is asked once, and given up if it does not answer in time. -/
theorem blind_ringConnect (p : Peer) :
    rdsRingConnect env ep.blind p = blinded (rdsRingConnect env ep p) := by
  unfold rdsRingConnect
  rw [blind_ringSendCtrl]
  by_cases hnone : p.state = .none
  · simp only [if_pos hnone]
    rw [apply_ite blinded]
    rfl
  · simp only [if_neg hnone]
    rw [apply_ite blinded]
    rfl

/-- A slot is filled from the message and posted if there is credit. -/
theorem blind_ringPlace (p : Peer) (payload : List UInt8) (tag data : UInt64) (context : ℕ)
    (flags : UInt64) (tagged genComp : Bool) (op : UInt8) :
    rdsRingPlace env ep.blind p payload tag data context flags tagged genComp op
      = blinded (rdsRingPlace env ep p payload tag data context flags tagged genComp op) := by
  unfold rdsRingPlace
  dsimp only
  split
  · rfl
  rw [blind_postRdma]
  generalize rdsPostRdma env ep _ = r
  obtain ⟨e, _ | err⟩ := r
  · dsimp only [blinded_mk]
    rw [apply_ite blind, ← blind_cqWriteTx]
    rfl
  · rfl

/-- **The ring** takes a message, asks to wait, or leaves it to the socket. -/
theorem blind_ringSend (payload : List UInt8) (dest tag data : UInt64) (context : ℕ)
    (flags : UInt64) (tagged genComp : Bool) (op : UInt8) :
    rdsRingSend env ep.blind payload dest tag data context flags tagged genComp op
      = blinded (rdsRingSend env ep payload dest tag data context flags tagged genComp op) := by
  unfold rdsRingSend
  rw [show ep.blind.cfg = ep.cfg from rfl, blind_peerGet]
  split
  · rfl
  split
  · rfl
  generalize rdsPeerGet env ep dest = r
  obtain ⟨e, _ | p⟩ := r
  · rfl
  dsimp only [blinded_mk]
  rw [show e.blind.touchPeer p = (e.touchPeer p).blind from rfl, blind_ringPlace, blind_ringConnect]
  split
  · rfl
  split
  · rfl
  · rfl

theorem blind_ringReturnCredit (p : Peer) :
    rdsRingReturnCredit env ep.blind p = (rdsRingReturnCredit env ep p).blind := by
  unfold rdsRingReturnCredit
  dsimp only
  rw [blind_postRdma]
  generalize rdsPostRdma env ep _ = r
  obtain ⟨e, _ | err⟩ := r
  · rfl
  · rfl

theorem blind_ringFlushCredit (addr : UInt64) :
    rdsRingFlushCredit env ep.blind addr = (rdsRingFlushCredit env ep addr).blind := by
  unfold rdsRingFlushCredit
  rw [show rdsPeerFind ep.blind addr = rdsPeerFind ep addr from rfl]
  cases rdsPeerFind ep addr with
  | none => rfl
  | some p =>
    dsimp only
    rw [apply_ite blind, blind_ringReturnCredit]

/-! ## Sends and one-sided operations -/

/-- An eager message is complete when the socket has it. -/
theorem blind_sendEager (iov : List Iovec) (dest : SockAddr) (tag data : UInt64) (context : ℕ)
    (flags : UInt64) (tagged genComp : Bool) :
    rdsSendEager env ep.blind iov dest tag data context flags tagged genComp
      = blinded (rdsSendEager env ep iov dest tag data context flags tagged genComp) := by
  unfold rdsSendEager
  dsimp only
  rw [blind_sendDgram]
  generalize ep.sendDgram env dest _ = r
  obtain ⟨e, _ | err⟩ := r
  · dsimp only [blinded_mk]
    rw [apply_ite blind, blind_cqWriteTx]
  · rfl

/-- A request the ring does not take goes by the socket; one that goes by neither gives
its registrations back. -/
theorem blind_sendRts (p : Pending) (bytes : List UInt8) (dest : SockAddr) (destAddr : UInt64) :
    rdsSendRts env ep.blind p bytes dest destAddr
      = blinded (rdsSendRts env ep p bytes dest destAddr) := by
  have hring : (if ep.blind.cfg.eagerRdma then
        rdsRingSend env ep.blind bytes destAddr 0 0 0 0 false false rdsOpRts
      else (ep.blind, .err fiEnosys))
      = blinded (if ep.cfg.eagerRdma then
        rdsRingSend env ep bytes destAddr 0 0 0 0 false false rdsOpRts
      else (ep, .err fiEnosys)) := by
    rw [apply_ite blinded, blind_ringSend]
    rfl
  unfold rdsSendRts
  rw [hring]
  generalize (if ep.cfg.eagerRdma then
      rdsRingSend env ep bytes destAddr 0 0 0 0 false false rdsOpRts
    else (ep, .err fiEnosys)) = r
  obtain ⟨e, ret⟩ := r
  dsimp only [blinded_mk]
  rw [blind_sendDgram]
  have hsend :
      (if ret = .err fiEnosys then blinded (e.sendDgram env dest bytes) else (e.blind, ret))
      = blinded (if ret = .err fiEnosys then e.sendDgram env dest bytes else (e, ret)) := by
    rw [apply_ite blinded]
    rfl
  rw [hsend]
  generalize (if ret = .err fiEnosys then e.sendDgram env dest bytes else (e, ret)) = r
  obtain ⟨e, _ | err⟩ := r
  · dsimp only [blinded_mk]
    rw [show e.blind.linkPending p = (e.linkPending p).blind from rfl, blind_log _ rfl]
    rfl
  · rfl

/-- A rendezvous send registers its source before it draws an id. -/
theorem blind_sendRndzv (iov : List Iovec) (dest : SockAddr) (tag data : UInt64) (context : ℕ)
    (flags : UInt64) (tagged genComp : Bool) (destAddr : UInt64) :
    rdsSendRndzv env ep.blind iov dest tag data context flags tagged genComp destAddr
      = blinded (rdsSendRndzv env ep iov dest tag data context flags tagged genComp destAddr) := by
  unfold rdsSendRndzv malloc
  rw [apply_ite blinded]
  refine ite_congr rfl (fun _ => rfl) (fun _ => ?_)
  dsimp only
  rw [apply_ite blinded, apply_ite blinded]
  refine ite_congr rfl (fun _ => rfl) (fun _ => ite_congr rfl (fun _ => rfl) (fun _ => ?_))
  rw [show ep.blind.cfg.sock = ep.cfg.sock from rfl,
    show rdsRegChunks env ep.cfg.sock ep.blind.domain.cacheEnabled (chunksOf iov) ep.blind.domain
      = rdsRegChunks env ep.cfg.sock ep.domain.cacheEnabled (chunksOf iov) ep.domain from rfl]
  generalize rdsRegChunks env ep.cfg.sock ep.domain.cacheEnabled (chunksOf iov) ep.domain = s
  obtain ⟨dom, segs, mrs, _ | err⟩ := s
  · have h := blind_pendingAlloc env { ep with tick := ep.tick + 1 + 1, domain := dom } .rndzvTx
      context (txFlags tagged)
    rw [show ({ ep with tick := ep.tick + 1 + 1, domain := dom } : Ep).blind
      = { ep.blind with tick := ep.blind.tick + 1 + 1, domain := dom } from rfl] at h
    dsimp only
    rw [h]
    generalize rdsPendingAlloc env { ep with tick := ep.tick + 1 + 1, domain := dom } .rndzvTx
      context (txFlags tagged) = r
    obtain ⟨e, _ | p⟩ := r
    · rfl
    · exact blind_sendRts env e _ _ dest destAddr
  · rfl

/-- **A send** tries the ring for what fits a slot, and then goes by its length. -/
theorem blind_genericSend (iov : List Iovec) (destAddr tag data : UInt64) (context : ℕ)
    (flags : UInt64) (tagged : Bool) :
    rdsGenericSend env ep.blind iov destAddr tag data context flags tagged
      = blinded (rdsGenericSend env ep iov destAddr tag data context flags tagged) := by
  unfold rdsGenericSend
  rw [show ep.blind.cfg = ep.cfg from rfl]
  split
  · rfl
  dsimp only
  split
  · rfl
  cases rdsAvAddr ep.cfg destAddr with
  | none => rfl
  | some dest =>
    dsimp only
    rw [blind_ringSend, show (ep.blind, Ret.err fiEnosys) = blinded (ep, .err fiEnosys) from rfl,
      ← apply_ite blinded]
    generalize (if ep.cfg.eagerRdma = true ∧ ofiTotalIovLen iov ≤ ep.cfg.geom.payload then
        rdsRingSend env ep (ofiCopyFromIov env.mem (ofiTotalIovLen iov) iov 0) destAddr tag data
          context flags tagged (hasFlag (ep.cfg.txOpFlags ||| flags) fiCompletion) rdsOpEager
      else (ep, Ret.err fiEnosys)) = r
    obtain ⟨e, ret⟩ := r
    dsimp only [blinded_mk]
    rw [apply_ite blinded, apply_ite blinded, blind_sendEager, blind_sendRndzv]
    rfl

/-- **An inject** has only the two ways of a short message. -/
theorem blind_genericInject (buf len : ℕ) (destAddr tag : UInt64) (tagged : Bool) :
    rdsGenericInject env ep.blind buf len destAddr tag tagged
      = blinded (rdsGenericInject env ep buf len destAddr tag tagged) := by
  unfold rdsGenericInject
  rw [show ep.blind.cfg = ep.cfg from rfl]
  split
  · rfl
  cases rdsAvAddr ep.cfg destAddr with
  | none => rfl
  | some dest =>
    dsimp only
    rw [blind_ringSend, show (ep.blind, Ret.err fiEnosys) = blinded (ep, .err fiEnosys) from rfl,
      ← apply_ite blinded]
    generalize (if ep.cfg.eagerRdma = true ∧ len ≤ ep.cfg.geom.payload then
        rdsRingSend env ep (ofiCopyFromIov env.mem len [⟨buf, len⟩] 0) destAddr tag 0 0 0 tagged
          false rdsOpEager
      else (ep, Ret.err fiEnosys)) = r
    obtain ⟨e, ret⟩ := r
    dsimp only [blinded_mk]
    rw [apply_ite blinded, blind_sendEager]
    rfl

/-- One-sided transfers go out piece by piece, by induction on the pieces left. -/
theorem blind_rmaLoop (dest : SockAddr) (key remoteOff : UInt64) (isWrite : Bool)
    (iov : List Iovec) (total fuel off : ℕ) (p : Pending) :
    rdsRmaLoop env dest key remoteOff isWrite iov total fuel off ep.blind p
      = blinded (rdsRmaLoop env dest key remoteOff isWrite iov total fuel off ep p) := by
  induction fuel generalizing off ep p with
  | zero => rfl
  | succ fuel ih =>
    rw [rdsRmaLoop, rdsRmaLoop]
    split
    · dsimp only
      split
      · rfl
      rw [blind_postRdma]
      generalize rdsPostRdma env ep _ = r
      obtain ⟨e, _ | err⟩ := r
      · exact ih e _ _
      · rfl
    · rfl

/-- **A one-sided transfer** is pending once its first piece is out. -/
theorem blind_rmaCommon (iov : List Iovec) (remoteFi remoteOff key : UInt64) (isWrite : Bool)
    (context : ℕ) (flags : UInt64) :
    rdsRmaCommon env ep.blind iov remoteFi remoteOff key isWrite context flags
      = blinded (rdsRmaCommon env ep iov remoteFi remoteOff key isWrite context flags) := by
  unfold rdsRmaCommon
  rw [show ep.blind.cfg = ep.cfg from rfl]
  dsimp only
  split
  · rfl
  cases rdsAvAddr ep.cfg remoteFi with
  | none => rfl
  | some dest =>
    dsimp only
    rw [blind_pendingAlloc]
    generalize rdsPendingAlloc env ep .rma context _ = r
    obtain ⟨e, _ | p⟩ := r
    · rfl
    dsimp only [blinded_mk]
    rw [show e.blind.cfg = e.cfg from rfl, blind_rmaLoop]
    generalize rdsRmaLoop env dest key remoteOff isWrite iov _ _ 0 e _ = r
    obtain ⟨e, p, _ | err⟩ := r
    · dsimp only [blinded_mk]
      rw [apply_ite blinded]
      rfl
    · dsimp only [blinded_mk]
      rw [apply_ite blinded]
      rfl

theorem blind_injectWrite (buf len : ℕ) (destAddr addr key : UInt64) :
    rdsInjectWrite env ep.blind buf len destAddr addr key
      = blinded (rdsInjectWrite env ep buf len destAddr addr key) := by
  have hmalloc : ep.blind.malloc env = blinded (ep.malloc env) := rfl
  unfold rdsInjectWrite
  rw [show ep.blind.cfg = ep.cfg from rfl, hmalloc]
  split
  · rfl
  generalize ep.malloc env = r
  obtain ⟨e, _ | _⟩ := r
  · rfl
  dsimp only [blinded_mk]
  rw [show e.blind.cfg = e.cfg from rfl, blind_pendingAlloc]
  cases rdsAvAddr e.cfg destAddr with
  | none => rfl
  | some dest =>
    dsimp only
    generalize rdsPendingAlloc env e .rma 0 _ = r
    obtain ⟨e, _ | p⟩ := r
    · rfl
    dsimp only [blinded_mk]
    rw [blind_postRdma]
    generalize rdsPostRdma env e _ = r
    obtain ⟨e, _ | err⟩ := r
    · rfl
    · rfl

end Blind
end Ep
