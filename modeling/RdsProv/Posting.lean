import RdsProv.Matching
import RdsProv.Lib.FirstMatch

/-!
# Posting early and posting late

A receive may be posted before its message arrives, or after. The two orders take different
ways through the provider: a message that finds a receive is delivered from the bounce
buffer, one that does not is copied and delivered when a receive finds it. `early_late`
says that they end alike, from any state.

What the two ends have in common is a state with the same lists and counters, to which the
same deliveries are added; only their order differs, where there are two of them. What a
delivery adds does not depend on the endpoint it happens at, but for the configuration, the
answers of the socket and the id its operation is given. So it can be read off a blank
endpoint (`pairEffect`) and grafted onto any other (`Ep.graft`).
-/

/-! ## Ids -/

/-- A socket operation without the id it carries. -/
def SockOp.blind : SockOp → SockOp
  | .rdma op => .rdma { op with token := 0 }
  | op => op

/-- An RDMA operation with another id. -/
def RdmaOp.withToken (id : UInt64) (op : RdmaOp) : RdmaOp := { op with token := id }

/-- A pending operation with another id. -/
def Pending.withId (id : UInt64) (p : Pending) : Pending := { p with id := id }

/-- A parked operation with another id. -/
def Deferred.withId (id : UInt64) : Deferred → Deferred
  | .read peer cookie remoteOff liov _ rts => .read peer cookie remoteOff liov id rts
  | d => d

/-- An event of another operation. -/
def Event.withId (id : UInt64) : Event → Event
  | .rxOpen _ truncated => .rxOpen id truncated
  | .readFail _ => .readFail id
  | .rxDone _ cqes => .rxDone id cqes
  | e => e

namespace Ep

/-- **What happened at a blank endpoint, at another.** The id of the one operation it
started, if it started one, is the next id there. -/
def graft (ep e : Ep) : Ep :=
  { ep with
    opId := if e.idsGiven = 0 then ep.opId else succId ep.opId
    idsGiven := ep.idsGiven + e.idsGiven
    tick := ep.tick + e.tick
    placed := ep.placed ++ e.placed
    rxCq := ep.rxCq ++ e.rxCq
    wire := ep.wire ++ e.wire
    inflight := ep.inflight ++ e.inflight.map (RdmaOp.withToken (succId ep.opId))
    deferred := ep.deferred ++ e.deferred.map (Deferred.withId (succId ep.opId))
    pending := ep.pending ++ e.pending.map (Pending.withId (succId ep.opId))
    trace := ep.trace ++ e.trace.map (Event.withId (succId ep.opId)) }

/-- The same, next to what a call returns. -/
def grafted {α : Type} (ep : Ep) (r : Ep × α) : Ep × α := (ep.graft r.1, r.2)

section Graft

/-! ## What a delivery adds -/

/-- Two environments give a delivery the same answers, at an endpoint and at a blank one. -/
structure Same (env env₀ : Env) (ep : Ep) : Prop where
  alloc : env.AllocOk
  alloc₀ : env₀.AllocOk
  dgram : ∀ i dst bytes, env.sendmsg (ep.tick + i) (.dgram dst bytes)
    = env₀.sendmsg i (.dgram dst bytes)
  rdma : ∀ i op id, env.sendmsg (ep.tick + i) (.rdma (op.withToken id)) = env₀.sendmsg i (.rdma op)

variable {env env₀ : Env} {ep : Ep} (h : Same env env₀ ep) {e : Ep} (hcfg : e.cfg = ep.cfg)

theorem graft_log (ev : Event) :
    (ep.graft e).log (ev.withId (succId ep.opId)) = ep.graft (e.log ev) := by
  have htrace : ep.trace ++ e.trace.map (Event.withId (succId ep.opId))
      ++ [ev.withId (succId ep.opId)]
      = ep.trace ++ (e.trace ++ [ev]).map (Event.withId (succId ep.opId)) := by
    rw [List.map_append, List.append_assoc]
    rfl
  exact congrArg (fun t => { ep.graft e with trace := t }) htrace

include h in
theorem graft_malloc : (ep.graft e).malloc env = ep.grafted (e.malloc env₀) := by
  unfold malloc
  rw [h.alloc, h.alloc₀]
  rfl

/-- A call of `sendmsg` that is answered alike. -/
theorem graft_sendmsg {op op' : SockOp}
    (hop : env.sendmsg (ep.tick + e.tick) op' = env₀.sendmsg e.tick op) :
    ∃ ret, e.sendmsg env₀ op = ({ e with tick := e.tick + 1 }, ret)
      ∧ (ep.graft e).sendmsg env op' = (ep.graft { e with tick := e.tick + 1 }, ret) := by
  refine ⟨_, rfl, ?_⟩
  unfold Ep.sendmsg
  rw [show (ep.graft e).tick = ep.tick + e.tick from rfl, hop]
  rfl

include h hcfg in
theorem graft_sendDgram (dst : SockAddr) (bytes : List UInt8) :
    (ep.graft e).sendDgram env dst bytes = ep.grafted (e.sendDgram env₀ dst bytes) := by
  obtain ⟨ret, hret, hret'⟩ := graft_sendmsg (h.dgram e.tick dst bytes)
  unfold Ep.sendDgram
  rw [hret, hret']
  cases ret with
  | err err => rfl
  | ok =>
    have hwire : (ep.wire ++ e.wire) ++ [⟨ep.cfg.self, dst, bytes⟩]
        = ep.wire ++ (e.wire ++ [⟨e.cfg.self, dst, bytes⟩]) := by
      rw [hcfg, List.append_assoc]
    exact congrArg (fun w =>
      ({ ep.graft { e with tick := e.tick + 1 } with wire := w }, Ret.ok)) hwire

include h in
theorem graft_postRdma {op : RdmaOp} (hop : op.notify = true) :
    rdsPostRdma env (ep.graft e) (op.withToken (succId ep.opId))
      = ep.grafted (rdsPostRdma env₀ e op) := by
  obtain ⟨ret, hret, hret'⟩ := graft_sendmsg (h.rdma e.tick op (succId ep.opId))
  unfold rdsPostRdma
  rw [hret, hret', show (op.withToken (succId ep.opId)).loc = op.loc from rfl]
  split
  · rfl
  cases ret with
  | err err => rfl
  | ok =>
    have hinflight : ep.inflight ++ e.inflight.map (RdmaOp.withToken (succId ep.opId))
        ++ [op.withToken (succId ep.opId)]
        = ep.inflight ++ (e.inflight ++ [op]).map (RdmaOp.withToken (succId ep.opId)) := by
      rw [List.map_append, List.append_assoc]
      rfl
    refine (if_pos (show (op.withToken (succId ep.opId)).notify = true from hop)).trans ?_
    exact congrArg (fun l =>
      ({ ep.graft { e with tick := e.tick + 1 } with inflight := l }, Ret.ok)) hinflight

/-- An operation is parked. -/
theorem graft_park (d : Deferred) :
    { ep.graft e with deferred := (ep.graft e).deferred ++ [d.withId (succId ep.opId)] }
      = ep.graft { e with deferred := e.deferred ++ [d] } := by
  have hdeferred : ep.deferred ++ e.deferred.map (Deferred.withId (succId ep.opId))
      ++ [d.withId (succId ep.opId)]
      = ep.deferred ++ (e.deferred ++ [d]).map (Deferred.withId (succId ep.opId)) := by
    rw [List.map_append, List.append_assoc]
    rfl
  exact congrArg (fun l => { ep.graft e with deferred := l }) hdeferred

include h in
theorem graft_deferFin (peer : SockAddr) (id : UInt64) :
    rdsDeferFin env (ep.graft e) peer id = ep.graft (rdsDeferFin env₀ e peer id) := by
  unfold rdsDeferFin
  rw [graft_malloc h]
  unfold malloc grafted
  rw [h.alloc₀]
  exact graft_park (.fin peer id)

include h hcfg in
theorem graft_sendFin (peer : SockAddr) (id : UInt64) :
    rdsSendFin env (ep.graft e) peer id = ep.graft (rdsSendFin env₀ e peer id) := by
  unfold rdsSendFin rdsSendFinRaw
  rw [graft_sendDgram h hcfg]
  generalize e.sendDgram env₀ peer (finHdr id).encode = r
  obtain ⟨e, _ | err⟩ := r
  · rfl
  · dsimp only [grafted]
    rw [graft_deferFin h, apply_ite ep.graft]
    exact ite_congr rfl (fun _ => rfl) (fun _ => graft_log (.finLost peer id))

include h hcfg in
theorem graft_finalize (p : Pending) :
    rdsRndzvRxFinalize env (ep.graft e) (p.withId (succId ep.opId))
      = ep.graft (rdsRndzvRxFinalize env₀ e p) := by
  have hsend := graft_sendFin h hcfg p.peer p.peerId
  have hfin : (rdsSendFin env₀ e p.peer p.peerId).cfg = ep.cfg :=
    (Unmatched.sendFin env₀ e p.peer p.peerId).cfg.trans hcfg
  rw [rdsRndzvRxFinalize_eq env _ (p.withId (succId ep.opId)) hsend,
    rdsRndzvRxFinalize_eq env₀ e p rfl]
  generalize rdsSendFin env₀ e p.peer p.peerId = d at hfin
  have hlog : (ep.graft d).log (.rxDone (succId ep.opId) (p.entries d.cfg)) = _ :=
    graft_log (.rxDone p.id (p.entries d.cfg))
  rw [hfin] at hlog ⊢
  exact congrArg₂ (fun a b => { a with rxCq := b }) hlog (List.append_assoc _ _ _)

include h in
/-- The one id a delivery draws. -/
theorem graft_pendingAlloc (hids : e.idsGiven = 0) (type : PendType) (context : ℕ)
    (flags : UInt64) : ∃ e' p, rdsPendingAlloc env₀ e type context flags = (e', some p)
      ∧ e'.cfg = e.cfg
      ∧ rdsPendingAlloc env (ep.graft e) type context flags
        = (ep.graft e', some (p.withId (succId ep.opId))) := by
  unfold rdsPendingAlloc malloc
  rw [h.alloc, h.alloc₀]
  refine ⟨_, _, rfl, rfl, ?_⟩
  have hopId : (ep.graft e).opId = ep.opId := if_pos hids
  unfold rdsNextId
  dsimp only
  rw [hopId]
  rfl

theorem withId_fail (p : Pending) (err : ℕ) (id : UInt64) :
    (p.withId id).fail err = (p.fail err).withId id := by
  unfold Pending.fail
  rw [apply_ite (Pending.withId id)]
  rfl

include h in
theorem graft_issueRead (peer : SockAddr) (rts : UInt64) (p : Pending) (r : ReadReq) :
    rdsIssueRead env peer rts (ep.graft e, p.withId (succId ep.opId)) r
      = (ep.graft (rdsIssueRead env₀ peer rts (e, p) r).1,
        (rdsIssueRead env₀ peer rts (e, p) r).2.withId (succId ep.opId)) := by
  have hpost : rdsPostRdma env (ep.graft e) ((r.op peer p.id rts).withToken (succId ep.opId))
      = ep.grafted (rdsPostRdma env₀ e (r.op peer p.id rts)) := graft_postRdma h rfl
  have hop : r.op peer (p.withId (succId ep.opId)).id rts
      = (r.op peer p.id rts).withToken (succId ep.opId) := rfl
  unfold rdsIssueRead
  dsimp only
  rw [hop, hpost]
  generalize rdsPostRdma env₀ e (r.op peer p.id rts) = s
  obtain ⟨e, _ | err⟩ := s
  · rfl
  dsimp only [grafted]
  rw [graft_malloc h]
  unfold malloc grafted
  rw [h.alloc₀]
  split
  · exact congrArg (·, _) (graft_park (.read peer r.cookie r.remoteOff r.liov p.id rts))
  · exact congrArg₂ Prod.mk (graft_log (.readFail p.id)) (withId_fail p err _)

include h in
theorem graft_issueReads (peer : SockAddr) (rts : UInt64) (reqs : List ReadReq) (p : Pending) :
    reqs.foldl (rdsIssueRead env peer rts) (ep.graft e, p.withId (succId ep.opId))
      = (ep.graft (reqs.foldl (rdsIssueRead env₀ peer rts) (e, p)).1,
        (reqs.foldl (rdsIssueRead env₀ peer rts) (e, p)).2.withId (succId ep.opId)) := by
  induction reqs generalizing e p with
  | nil => rfl
  | cons r reqs ih =>
    rw [List.foldl_cons, List.foldl_cons, graft_issueRead h]
    exact ih _

include h hcfg in
/-- The reads, and what is done when none is left to wait for. -/
theorem graft_finishReads (peer : SockAddr) (rts : UInt64) (reqs : List ReadReq) (p : Pending) :
    (match reqs.foldl (rdsIssueRead env peer rts) (ep.graft e, p.withId (succId ep.opId)) with
      | (e, p) => if p.segRemaining = 0 ∧ p.segDeferred = 0 then rdsRndzvRxFinalize env e p
        else e.linkPending p)
      = ep.graft (match reqs.foldl (rdsIssueRead env₀ peer rts) (e, p) with
        | (e, p) => if p.segRemaining = 0 ∧ p.segDeferred = 0 then rdsRndzvRxFinalize env₀ e p
          else e.linkPending p) := by
  have hlast := (Unmatched.foldl_issueRead env₀ peer rts reqs (e, p)).cfg.trans hcfg
  rw [graft_issueReads h]
  generalize reqs.foldl (rdsIssueRead env₀ peer rts) (e, p) = s at hlast ⊢
  obtain ⟨e, p⟩ := s
  dsimp only
  rw [apply_ite ep.graft, graft_finalize h hlast]
  refine ite_congr rfl (fun _ => rfl) (fun _ => ?_)
  have hpending : ep.pending ++ e.pending.map (Pending.withId (succId ep.opId))
      ++ [p.withId (succId ep.opId)]
      = ep.pending ++ (e.pending ++ [p]).map (Pending.withId (succId ep.opId)) := by
    rw [List.map_append, List.append_assoc]
    rfl
  exact congrArg (fun l => { ep.graft e with pending := l }) hpending

include h hcfg in
theorem graft_startRndzvRead (hids : e.idsGiven = 0) (rx : RxEntry) (hdr : Hdr)
    (segs : List Seg) (peer : SockAddr) (src : UInt64) :
    rdsStartRndzvRead env (ep.graft e) rx hdr segs peer src
      = ep.graft (rdsStartRndzvRead env₀ e rx hdr segs peer src) := by
  obtain ⟨e₁, p, halloc, hcfg₁, halloc'⟩ :=
    graft_pendingAlloc h hids .rndzvRx rx.context (rdsRxFlags hdr)
  have hcfg₁ : e₁.cfg = ep.cfg := hcfg₁.trans hcfg
  unfold rdsStartRndzvRead
  rw [halloc, halloc']
  dsimp only
  have hrequest : (p.withId (succId ep.opId)).ofRequest rx hdr peer src (ep.graft e₁).cfg.rxOpFlags
      = (p.ofRequest rx hdr peer src e₁.cfg.rxOpFlags).withId (succId ep.opId) := by
    rw [hcfg₁]
    rfl
  rw [hrequest]
  generalize p.ofRequest rx hdr peer src e₁.cfg.rxOpFlags = q
  have hopen : (ep.graft e₁).log (.rxOpen (q.withId (succId ep.opId)).id
      (rx.totalLen < hdr.size.toNat))
      = ep.graft (e₁.log (.rxOpen q.id (rx.totalLen < hdr.size.toNat))) :=
    graft_log (.rxOpen q.id _)
  rw [hopen]
  exact graft_finishReads h (e := e₁.log _) hcfg₁ peer hdr.id _ q

include h hcfg in
/-- **What a delivery adds does not depend on the endpoint.** -/
theorem graft_deliver (hids : e.idsGiven = 0) (rx : RxEntry) (m : Unexp) :
    rdsDeliver env (ep.graft e) rx m = ep.graft (rdsDeliver env₀ e rx m) := by
  have hlog : (ep.graft e).log (.paired m rx) = _ := graft_log (.paired m rx)
  by_cases hop : m.hdr.op = rdsOpEager
  · rw [rdsDeliver_eager env _ rx hop, rdsDeliver_eager env₀ e rx hop, hcfg]
    have hcopied : { (ep.graft e).log (.paired m rx) with
        placed := (ep.graft e).placed ++ (ofiCopyToIov rx.iov 0 m.data).1
        rxCq := (ep.graft e).rxCq ++ m.entries ep.cfg rx }
        = { ep.graft (e.log (.paired m rx)) with
          placed := ep.placed ++ (e.placed ++ (ofiCopyToIov rx.iov 0 m.data).1)
          rxCq := ep.rxCq ++ (e.rxCq ++ m.entries ep.cfg rx) } := by
      rw [hlog, ← List.append_assoc, ← List.append_assoc]
      rfl
    exact hcopied
  · rw [rdsDeliver_rendezvous env _ rx hop, rdsDeliver_rendezvous env₀ e rx hop]
    exact hlog ▸ graft_startRndzvRead h (e := e.log (.paired m rx)) hcfg hids rx m.hdr m.segs
      m.src m.addr

end Graft

/-! ## Pairings and their answers -/

end Ep

/-- The answers of the socket to the delivery of a message to a receive, call by call. -/
abbrev Answers := Unexp → RxEntry → ℕ → SockOp → Option ℕ+

/-- An environment with answers that do not depend on ids. -/
def Env.answering (answers : ℕ → SockOp → Option ℕ+) : Env :=
  { Env.calm (fun _ _ => .error fiEnomem) with sendmsg := fun i op => answers i op.blind }

/-- **A call meets the answers that belong to the pairing it makes**, if it makes one; and no
allocation fails. -/
def Env.Gives (σ : Answers) (env : Env) (ep ep' : Ep) : Prop :=
  env.AllocOk ∧ ∀ m r, ep'.pairings = ep.pairings ++ [(m, r)] →
    ∀ i op, env.sendmsg (ep.tick + i) op = σ m r i op.blind

/-- What the delivery of a message to a receive adds. -/
def pairEffect (σ : Answers) (cfg : EpCfg) (pair : Unexp × RxEntry) : Ep :=
  rdsDeliver (.answering (σ pair.1 pair.2)) (.init cfg (.opened false none 0 0)) pair.2 pair.1

namespace Ep

/-- An endpoint after some more deliveries. -/
def delivered (σ : Answers) (ep : Ep) (pairs : List (Unexp × RxEntry)) : Ep :=
  pairs.foldl (fun e pair => e.graft (pairEffect σ ep.cfg pair)) ep

/-- An endpoint without the number of calls it has made. -/
def untimed (ep : Ep) : Ep := { ep with tick := 0 }

/-- **Two endpoints that differ in the order of deliveries at most**: the same queues and
counters, and the same deliveries in the one order and in the other, each with the id that
is next. -/
def SameUpToOrder (σ : Answers) (ep early late : Ep) : Prop :=
  ∃ posted unexp postings arrivals pairs,
    let base : Ep := { ep with
      posted := posted, unexp := unexp, postings := postings, arrivals := arrivals }
    early.untimed = (base.delivered σ pairs).untimed
      ∧ late.untimed = (base.delivered σ pairs.reverse).untimed

section Calls

variable {σ : Answers} {env : Env} {ep : Ep}

theorem graft_init (ep : Ep) (cfg : EpCfg) (domain : Domain) :
    ep.graft (.init cfg domain) = ep := by
  unfold graft init
  simp

/-- **A delivery is its effect.** -/
theorem deliver_eq_graft {ep₀ : Ep} {m : Unexp} {r : RxEntry}
    (htick : ep.tick = ep₀.tick) (hpairings : ep.pairings = ep₀.pairings)
    (h : env.Gives σ ep₀ (rdsDeliver env ep r m)) :
    rdsDeliver env ep r m = ep.graft (pairEffect σ ep.cfg (m, r)) := by
  have hpaired : (rdsDeliver env ep r m).pairings = ep₀.pairings ++ [(m, r)] := by
    rw [(Unmatched.deliver env ep r m).pairings, ← hpairings]
    exact pairings_of_paired rfl
  have hanswers := h.2 m r hpaired
  have hsame : Same env (.answering (σ m r)) ep := by
    refine ⟨h.1, fun _ => rfl, fun i dst bytes => ?_, fun i op id => ?_⟩
    · rw [htick, hanswers]
      rfl
    · rw [htick, hanswers]
      rfl
  have hgraft := graft_deliver hsame (e := .init ep.cfg (.opened false none 0 0)) rfl rfl r m
  rw [graft_init] at hgraft
  exact hgraft

/-- **A message arrives**: it is delivered to the first receive that takes it, or it waits. -/
theorem handleMessage_cases {m : Unexp} (h : env.Gives σ ep (rdsHandleMessage env ep m)) :
    (∃ r, (ep.posted m.hdr.tagged).find?
          (fun r => rdsMatches m.hdr.tagged r m.addr m.hdr.tag) = some r
        ∧ rdsHandleMessage env ep m = ({ ep with
          arrivals := ep.arrivals + 1
          posted := Function.update ep.posted m.hdr.tagged ((ep.posted m.hdr.tagged).eraseP
            (fun r => rdsMatches m.hdr.tagged r m.addr m.hdr.tag)) } : Ep).graft
              (pairEffect σ ep.cfg (m, r)))
      ∨ ((ep.posted m.hdr.tagged).find?
          (fun r => rdsMatches m.hdr.tagged r m.addr m.hdr.tag) = none
        ∧ ∃ t, rdsHandleMessage env ep m = { ep with
          arrivals := ep.arrivals + 1
          tick := t
          unexp := Function.update ep.unexp m.hdr.tagged (ep.unexp m.hdr.tagged ++ [m]) }) := by
  cases hfind : (ep.posted m.hdr.tagged).find?
      (fun r => rdsMatches m.hdr.tagged r m.addr m.hdr.tag) with
  | some r =>
    refine .inl ⟨r, rfl, ?_⟩
    rw [rdsHandleMessage_found env hfind] at h ⊢
    exact deliver_eq_graft rfl rfl h
  | none =>
    refine .inr ⟨rfl, ?_⟩
    rw [rdsHandleMessage_none env hfind]
    unfold rdsEnqueueUnexp malloc
    rw [h.1]
    dsimp only
    split
    · exact ⟨_, rfl⟩
    · rw [h.1]
      exact ⟨_, rfl⟩

/-- **A receive is posted**: it is given the first message it takes, or it waits. -/
theorem postRecv_cases {iov : List Iovec} {addr tag ignore : UInt64} {context : ℕ}
    {flags : UInt64} {k : Bool} {r : RxEntry} (hcount : iov.length ≤ rdsIovLimit)
    (hr : ep.postedEntry iov addr tag ignore context flags k = r)
    (h : env.Gives σ ep (rdsPostRecv env ep iov addr tag ignore context flags k).1) :
    (∃ m, (ep.unexp k).find? (fun m => rdsMatches k r m.addr m.hdr.tag) = some m
        ∧ rdsPostRecv env ep iov addr tag ignore context flags k = (({ ep with
          postings := ep.postings + 1
          unexp := Function.update ep.unexp k ((ep.unexp k).eraseP
            (fun m => rdsMatches k r m.addr m.hdr.tag)) } : Ep).graft
              (pairEffect σ ep.cfg (m, r)), .ok))
      ∨ ((ep.unexp k).find? (fun m => rdsMatches k r m.addr m.hdr.tag) = none
        ∧ ∃ t, rdsPostRecv env ep iov addr tag ignore context flags k = ({ ep with
          postings := ep.postings + 1
          tick := t
          posted := Function.update ep.posted k (ep.posted k ++ [r]) }, .ok)) := by
  unfold postedEntry at hr
  unfold rdsPostRecv rdsMatchUnexp at h ⊢
  rw [if_neg (not_lt.mpr hcount)] at h ⊢
  dsimp only at h ⊢
  rw [hr] at h ⊢
  cases hfind : (ep.unexp k).find? (fun m => rdsMatches k r m.addr m.hdr.tag) with
  | some m =>
    refine .inl ⟨m, rfl, ?_⟩
    rw [hfind] at h
    exact congrArg (·, Ret.ok) (deliver_eq_graft rfl rfl h)
  | none =>
    refine .inr ⟨rfl, ?_⟩
    unfold malloc
    dsimp only
    rw [h.1]
    exact ⟨_, rfl⟩

/-- **The diamond.** A receive and a message come to an endpoint in either order. -/
theorem diamond {env₁ env₂ env₃ env₄ : Env} {iov : List Iovec} {addr tag ignore : UInt64}
    {context : ℕ} {flags : UInt64} {k : Bool} {m : Unexp} {posted early arrived late : Ep}
    {ret ret' : Ret} (hcount : iov.length ≤ rdsIovLimit)
    (hposted : rdsPostRecv env₁ ep iov addr tag ignore context flags k = (posted, ret))
    (hearly : rdsHandleMessage env₂ posted m = early)
    (harrived : rdsHandleMessage env₃ ep m = arrived)
    (hlate : rdsPostRecv env₄ arrived iov addr tag ignore context flags k = (late, ret'))
    (h₁ : env₁.Gives σ ep posted) (h₂ : env₂.Gives σ posted early)
    (h₃ : env₃.Gives σ ep arrived) (h₄ : env₄.Gives σ arrived late) :
    ret' = ret ∧ ep.SameUpToOrder σ early late := by
  generalize hr : ep.postedEntry iov addr tag ignore context flags k = r
  rw [← hearly] at h₂
  rw [← harrived] at h₃
  have hpost := postRecv_cases hcount hr (by rwa [hposted])
  have harrive := handleMessage_cases h₃
  have harrive' := handleMessage_cases h₂
  rw [hposted] at hpost
  rw [harrived] at harrive
  rw [hearly] at harrive'
  have hr' : arrived.postedEntry iov addr tag ignore context flags k = r := by
    obtain ⟨p, -, rfl⟩ | ⟨-, t, rfl⟩ := harrive
    · exact hr
    · exact hr
  have hpost' := postRecv_cases hcount hr' (by rwa [hlate])
  rw [hlate] at hpost'
  clear hposted hearly harrived hlate h₁ h₂ h₃ h₄ hr'
  obtain ⟨u, hu, hP⟩ | ⟨hu, t, hP⟩ := hpost
  · obtain ⟨rfl, rfl⟩ := Prod.mk.inj hP
    obtain ⟨p, hp, rfl⟩ | ⟨hp, t, rfl⟩ := harrive
    · -- the receive takes an earlier message, and the message goes to an earlier receive
      obtain ⟨p', hp', rfl⟩ | ⟨hp', -⟩ := harrive'
      · obtain ⟨u', hu', hL⟩ | ⟨hu', -⟩ := hpost'
        · cases hp.symm.trans hp'
          cases hu.symm.trans hu'
          obtain ⟨rfl, rfl⟩ := Prod.mk.inj hL
          exact ⟨rfl, _, _, _, _, [(u, r), (m, p)], rfl, rfl⟩
        · cases hu.symm.trans hu'
      · cases hp.symm.trans hp'
    · -- the receive takes an earlier message, and the message waits
      obtain ⟨p', hp', rfl⟩ | ⟨-, t', rfl⟩ := harrive'
      · cases hp.symm.trans hp'
      · have hu'' := List.find?_update_append_of_some (j := m.hdr.tagged) (b := m) hu
        obtain ⟨u', hu', hL⟩ | ⟨hu', -⟩ := hpost'
        · cases hu''.symm.trans hu'
          obtain ⟨rfl, rfl⟩ := Prod.mk.inj hL
          refine ⟨rfl, ep.posted, _, ep.postings + 1, ep.arrivals + 1, [(u, r)], ?_, rfl⟩
          exact congrArg (fun q => untimed { ep.graft (pairEffect σ ep.cfg (u, r)) with
            postings := ep.postings + 1, arrivals := ep.arrivals + 1, unexp := q })
            (List.update_append_update_eraseP hu)
        · cases hu''.symm.trans hu'
  · obtain ⟨rfl, rfl⟩ := Prod.mk.inj hP
    obtain ⟨p, hp, rfl⟩ | ⟨hp, t', rfl⟩ := harrive
    · -- the receive waits, and the message goes to an earlier receive
      have hp'' := List.find?_update_append_of_some (j := k) (b := r) hp
      obtain ⟨p', hp', rfl⟩ | ⟨hp', -⟩ := harrive'
      · cases hp''.symm.trans hp'
        obtain ⟨u', hu', hL⟩ | ⟨-, t', hL⟩ := hpost'
        · cases hu.symm.trans hu'
        · obtain ⟨rfl, rfl⟩ := Prod.mk.inj hL
          refine ⟨rfl, _, ep.unexp, ep.postings + 1, ep.arrivals + 1, [(m, p)], rfl, ?_⟩
          exact congrArg (fun q => untimed { ep.graft (pairEffect σ ep.cfg (m, p)) with
            postings := ep.postings + 1, arrivals := ep.arrivals + 1, posted := q })
            (List.update_append_update_eraseP hp)
      · cases hp''.symm.trans hp'
    · have hp'' := List.find?_update_append_of_none (j := k) (b := r) hp
      have hu'' := List.find?_update_append_of_none (j := m.hdr.tagged) (b := m) hu
      by_cases hmatch : k = m.hdr.tagged ∧ rdsMatches k r m.addr m.hdr.tag = true
      · -- the receive takes the message
        obtain ⟨rfl, hmatch⟩ := hmatch
        rw [if_pos ⟨rfl, hmatch⟩] at hp'' hu''
        obtain ⟨p', hp', rfl⟩ | ⟨hp', -⟩ := harrive'
        · cases hp''.symm.trans hp'
          obtain ⟨u', hu', hL⟩ | ⟨hu', -⟩ := hpost'
          · cases hu''.symm.trans hu'
            obtain ⟨rfl, rfl⟩ := Prod.mk.inj hL
            refine ⟨rfl, ep.posted, ep.unexp, ep.postings + 1, ep.arrivals + 1, [(m, r)], ?_, ?_⟩
            · exact congrArg (fun q => untimed { ep.graft (pairEffect σ ep.cfg (m, r)) with
                postings := ep.postings + 1, arrivals := ep.arrivals + 1, posted := q })
                (List.update_eraseP_update_append hp hmatch)
            · exact congrArg (fun q => untimed { ep.graft (pairEffect σ ep.cfg (m, r)) with
                postings := ep.postings + 1, arrivals := ep.arrivals + 1, unexp := q })
                (List.update_eraseP_update_append hu hmatch)
          · cases hu''.symm.trans hu'
        · cases hp''.symm.trans hp'
      · -- both wait
        rw [if_neg hmatch] at hu''
        have hmatch' : ¬(m.hdr.tagged = k ∧ rdsMatches m.hdr.tagged r m.addr m.hdr.tag = true) :=
          fun h => hmatch ⟨h.1.symm, h.1 ▸ h.2⟩
        rw [if_neg hmatch'] at hp''
        obtain ⟨p', hp', rfl⟩ | ⟨-, t'', rfl⟩ := harrive'
        · cases hp''.symm.trans hp'
        · obtain ⟨u', hu', hL⟩ | ⟨-, t'', hL⟩ := hpost'
          · cases hu''.symm.trans hu'
          · obtain ⟨rfl, rfl⟩ := Prod.mk.inj hL
            exact ⟨rfl, _, _, ep.postings + 1, ep.arrivals + 1, [], rfl, rfl⟩

end Calls

end Ep

/-- A message as it should be: eager, or a request with all its segments. -/
def Hdr.IsMessage (hdr : Hdr) (payload : List UInt8) : Prop :=
  hdr.magic = rdsHdrMagic ∧ (hdr.op = rdsOpEager
    ∨ hdr.op = rdsOpRts ∧ hdr.segCnt.toNat * rdsSegSize ≤ payload.length)

theorem Hdr.IsMessage.handleInbound {hdr : Hdr} {payload : List UInt8}
    (h : hdr.IsMessage payload) (env : Env) (ep : Ep) (src : SockAddr) (srcFi : UInt64) :
    rdsHandleInbound env ep hdr payload src srcFi
      = rdsHandleMessage env ep (.ofInbound hdr payload src srcFi ep.arrivals) := by
  exact rdsHandleInbound_of_message h.1 h.2 env ep src srcFi

namespace Ep

/-- The two orders, for entry points. -/
theorem diamond_inbound {σ : Answers} {ep : Ep} {hdr : Hdr} {payload : List UInt8}
    (hmessage : hdr.IsMessage payload) {src : SockAddr} {srcFi : UInt64} {iov : List Iovec}
    {addr tag ignore : UInt64} {context : ℕ} {flags : UInt64} {k : Bool}
    {env₁ env₂ env₃ env₄ : Env} {posted early arrived late : Ep} {ret ret' : Ret}
    (hposted : rdsPostRecv env₁ ep iov addr tag ignore context flags k = (posted, ret))
    (hearly : rdsHandleInbound env₂ posted hdr payload src srcFi = early)
    (harrived : rdsHandleInbound env₃ ep hdr payload src srcFi = arrived)
    (hlate : rdsPostRecv env₄ arrived iov addr tag ignore context flags k = (late, ret'))
    (h₁ : env₁.Gives σ ep posted) (h₂ : env₂.Gives σ posted early)
    (h₃ : env₃.Gives σ ep arrived) (h₄ : env₄.Gives σ arrived late) :
    ret' = ret ∧ ep.SameUpToOrder σ early late := by
  rw [hmessage.handleInbound] at hearly harrived
  by_cases hcount : rdsIovLimit < iov.length
  · -- the receive is refused in both orders
    have hrefused (env : Env) (e : Ep) :
        rdsPostRecv env e iov addr tag ignore context flags k = (e, .err fiEinval) :=
      if_pos hcount
    rw [hrefused] at hposted hlate
    obtain ⟨rfl, rfl⟩ := Prod.mk.inj hposted
    obtain ⟨rfl, rfl⟩ := Prod.mk.inj hlate
    refine ⟨rfl, ?_⟩
    subst hearly harrived
    obtain ⟨p, hp, harrive⟩ | ⟨hp, t, harrive⟩ := handleMessage_cases h₂
    · obtain ⟨p', hp', harrive'⟩ | ⟨hp', -⟩ := handleMessage_cases h₃
      · cases hp.symm.trans hp'
        rw [harrive, harrive']
        exact ⟨_, _, ep.postings, ep.arrivals + 1, [(_, p)], rfl, rfl⟩
      · cases hp.symm.trans hp'
    · obtain ⟨p', hp', -⟩ | ⟨-, t', harrive'⟩ := handleMessage_cases h₃
      · cases hp.symm.trans hp'
      · rw [harrive, harrive']
        exact ⟨_, _, ep.postings, ep.arrivals + 1, [], rfl, rfl⟩
  · have hcount := not_lt.mp hcount
    have harrivals : posted.arrivals = ep.arrivals := by
      have hpost := postRecv_cases hcount rfl (by rwa [hposted])
      rw [hposted] at hpost
      obtain ⟨u, -, hP⟩ | ⟨-, t, hP⟩ := hpost
      · cases hP
        rfl
      · cases hP
        rfl
    rw [harrivals] at hearly
    exact diamond hcount hposted hearly harrived hlate h₁ h₂ h₃ h₄

/-- **Early and late posting agree.** From any state, with every allocation successful: whether
a receive is posted before a message arrives or after it, the call returns the same, and the
endpoint ends in the same state, up to the order of the deliveries it makes and the ids of
their operations, if the socket answers each delivery alike. -/
theorem early_late (σ : Answers) (ep : Ep) (hdr : Hdr) (payload : List UInt8)
    (hmessage : hdr.IsMessage payload) (src : SockAddr) (srcFi : UInt64) (iov : List Iovec)
    (addr tag ignore : UInt64) (context : ℕ) (flags : UInt64) (tagged : Bool)
    (env₁ env₂ env₃ env₄ : Env) :
    let posting := rdsPostRecv env₁ ep iov addr tag ignore context flags tagged
    let early := rdsHandleInbound env₂ posting.1 hdr payload src srcFi
    let arrived := rdsHandleInbound env₃ ep hdr payload src srcFi
    let posting' := rdsPostRecv env₄ arrived iov addr tag ignore context flags tagged
    env₁.Gives σ ep posting.1 → env₂.Gives σ posting.1 early → env₃.Gives σ ep arrived →
      env₄.Gives σ arrived posting'.1 →
      posting'.2 = posting.2 ∧ ep.SameUpToOrder σ early posting'.1 := by
  intro posting early arrived posting' h₁ h₂ h₃ h₄
  exact diamond_inbound hmessage rfl rfl rfl rfl h₁ h₂ h₃ h₄

/-- A socket without room for RDMA operations. -/
def fullSocket : Env :=
  { Env.calm (fun _ _ => .ok 1) with
    sendmsg := fun _ op => if op.rdma?.isSome then some fiEagain else none }

/-- A receive for the second of two peers is posted, and a request of the first one waits. -/
def crossed : Ep :=
  after (EpCfg.standard false [20, 30] 10) (.opened true (some 3) 1024 268435456)
    [.postRecv fullSocket [⟨4096, 4⟩] 1 0 0 7 0 false,
      .recv fullSocket 20 ((rtsHdr false 0 1 0 0 100 5).encode
        ++ Seg.encode ⟨9, 0, 100⟩)]

/-- A receive for the first peer and a message of the second make two deliveries, in the one
order and in the other; the read of one of them is parked. -/
theorem crossed_early_late :
    let posting := rdsPostRecv fullSocket crossed [⟨8192, 200⟩] 0 0 0 8 0 false
    let early := rdsHandleInbound fullSocket posting.1 (eagerHdr false 0 0 0 4) [1, 2, 3, 4] 30 1
    let arrived := rdsHandleInbound fullSocket crossed (eagerHdr false 0 0 0 4) [1, 2, 3, 4] 30 1
    let late := rdsPostRecv fullSocket arrived [⟨8192, 200⟩] 0 0 0 8 0 false
    early.pairings.length = 2 ∧ early.deferred.length = 1 ∧ early.rxCq.length = 1
      ∧ late.2 = posting.2
      ∧ crossed.SameUpToOrder (fun _ _ => fullSocket.sendmsg) early late.1 := by
  intro posting early arrived late
  have hgives (e e' : Ep) : fullSocket.Gives (fun _ _ => fullSocket.sendmsg) e e' := by
    refine ⟨fun _ => rfl, fun m r _ i op => ?_⟩
    cases op with
    | dgram dst bytes => rfl
    | rdma op => rfl
  refine ⟨by decide +kernel, by decide +kernel, by decide +kernel, ?_⟩
  exact early_late (fun _ _ => fullSocket.sendmsg) crossed (eagerHdr false 0 0 0 4) [1, 2, 3, 4]
    ⟨rfl, .inl rfl⟩ 30 1 [⟨8192, 200⟩] 0 0 0 8 0 false fullSocket fullSocket fullSocket fullSocket
    (hgives _ _) (hgives _ _) (hgives _ _) (hgives _ _)

end Ep
