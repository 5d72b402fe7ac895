import RdsProv.Carriers

/-!
# Three paths, one outcome

A message travels as an eager datagram, in a slot of the ring, or by rendezvous, whose request
itself travels as a datagram or in a slot. What the two applications see of it – the bytes in
the receive buffer and the two completions – is said by `SendReq.outcome`, which knows the
message, the receive and the two configurations, and not the path.

A `Transfer` is one message from the call that sends it to the last completion, in any state of
the two endpoints: what the call handed over is what meets the receive, early or late; the reads
this starts are notified; and the datagrams the receiver sends back arrive. Whichever path the
call took, the outcome is the same (`Transfer.outcome_same`).

Three things can go wrong on the long path that the short ones do not have: the receiver may
have no memory for its record of the receive, it may lose the `FIN`, and the `FIN` may find
another operation under the id of the send (`PathTrial.long_path_fails`).
-/

/-! ## The receive it meets -/

/-- The receive an endpoint has posted for a message from an address. -/
def Ep.Awaits (ep : Ep) (m : Message) (fi : UInt64) (rx : RxEntry) : Prop :=
  (ep.posted m.1.tagged).find? (fun rx => rdsMatches m.1.tagged rx fi m.1.tag) = some rx

/-- **The step in which a message meets its receive.** The receive was posted before, and the
message is taken off the socket or out of the ring; or the message was there before, and the
receive is posted. -/
inductive Ep.Joins (env : Env) (src : SockAddr) (m : Message) (rx : RxEntry) (ep : Ep) :
    Carrier → Ep → Prop
  | recv {bytes : List UInt8} (hrx : ep.Awaits m (ofiIpAvGetFiAddr ep.cfg src) rx) :
      Joins env src m rx ep (.dgram bytes) (ep.act (.recv env src bytes))
  /-- The record of the peer has the address that the address vector gives its source. -/
  | poll {s : RingSlot} {p : Peer} (hp : rdsPeerFind ep p.addr = some p)
      (hs : p.nextSlot ep.cfg.geom.slots = some s) (hsa : p.sa = src)
      (haddr : p.addr = ofiIpAvGetFiAddr ep.cfg src) (hrx : ep.Awaits m p.addr rx) :
      Joins env src m rx ep (.slot s) (ep.act (.poll env p.addr))
  | post {c : Carrier} {iov : List Iovec} {addr tag ignore : UInt64} {context : ℕ}
      {flags : UInt64} {tagged : Bool} {no : ℕ} (hlen : iov.length ≤ rdsIovLimit)
      (hrx : rx = ⟨context, iov, ofiTotalIovLen iov, tag, ignore, addr,
        flags ||| (if tagged then fiTagged else 0), ep.postings⟩)
      (hux : (ep.unexp tagged).find? (fun ux => rdsMatches tagged rx ux.addr ux.hdr.tag)
        = some (Unexp.ofInbound m.1 m.2 src (ofiIpAvGetFiAddr ep.cfg src) no)) :
      Joins env src m rx ep c (ep.act (.postRecv env iov addr tag ignore context flags tagged))

/-- Nothing changed but the queues of the matching engine and the ring. -/
def Ep.Aside (ep ep' : Ep) : Prop :=
  ep' = { ep with
    posted := ep'.posted, unexp := ep'.unexp, postings := ep'.postings, arrivals := ep'.arrivals
    peers := ep'.peers, writes := ep'.writes, tick := ep'.tick }

/-- A message that enters the matching engine is given to the receive that awaits it. -/
theorem rdsHandleMessage_awaited (env : Env) {ep : Ep} {m : Message} {fi : UInt64} {rx : RxEntry}
    (h : ep.Awaits m fi rx) (src : SockAddr) (no : ℕ) :
    ∃ e, ep.Aside e ∧ rdsHandleMessage env ep (Unexp.ofInbound m.1 m.2 src fi no)
      = rdsDeliver env e rx (Unexp.ofInbound m.1 m.2 src fi no) := by
  refine ⟨_, ?_, rdsHandleMessage_found env h⟩
  rfl

/-- What a poll does after the slot was delivered is about the ring. -/
theorem aside_pollSlot (env : Env) (ep : Ep) (p : Peer) (slots : UInt32) :
    ep.Aside (if p.creditDue slots then rdsRingReturnCredit env (ep.setPeer p) p
      else ep.setPeer p) := by
  split
  · obtain ⟨-, h⟩ | ⟨-, h⟩ := rdsRingReturnCredit_cases env (ep.setPeer p) p
    · rw [h]
      rfl
    · rw [h]
      rfl
  · rfl

/-- **Early or late, by socket or by ring, the message is given to the receive.** -/
theorem Ep.Joins.deliver {env : Env} {src : SockAddr} {m : Message} {rx : RxEntry} {ep ep' : Ep}
    {c : Carrier} (h : ep.Joins env src m rx c ep') (hm : c.message? = some m) :
    ∃ e no, ep.Aside e ∧ (rdsDeliver env e rx
      (Unexp.ofInbound m.1 m.2 src (ofiIpAvGetFiAddr ep.cfg src) no)).Aside ep' := by
  cases h with
  | @recv bytes hrx =>
    obtain ⟨e, haside, hdeliver⟩ := rdsHandleMessage_awaited env hrx src ep.arrivals
    refine ⟨e, ep.arrivals, haside, ?_⟩
    have hrecv : rdsRecvDgram env ep src bytes = rdsHandleMessage env ep
        (Unexp.ofInbound m.1 m.2 src (ofiIpAvGetFiAddr ep.cfg src) ep.arrivals) := by
      unfold Carrier.message? at hm
      dsimp only at hm
      split at hm
      · rename_i hlen
        unfold rdsRecvDgram
        rw [if_neg (not_lt.mpr hlen)]
        exact rdsHandleInbound_message hm env ep src _
      · cases hm
    show Ep.Aside _ (rdsRecvDgram env ep src bytes)
    rw [hrecv, hdeliver]
    rfl
  | @poll s p hp hs hsa haddr hrx =>
    have hpre : (ep.setPeer (p.absorbAck s.ack)).Awaits m p.addr rx := hrx
    obtain ⟨e, haside, hdeliver⟩ := rdsHandleMessage_awaited env hpre src ep.arrivals
    refine ⟨e, ep.arrivals, ?_, ?_⟩
    · unfold Ep.Aside at haside ⊢
      rw [haside]
      rfl
    have hring : rdsRingDeliver env (ep.setPeer (p.absorbAck s.ack)) p.sa p.addr s
        = rdsDeliver env e rx (Unexp.ofInbound m.1 m.2 src p.addr ep.arrivals) := by
      rw [rdsRingDeliver_message hm, hsa]
      exact hdeliver
    show Ep.Aside _ ((rdsRingPollSlot env ep p.addr).getD ep)
    unfold rdsRingPollSlot
    dsimp only
    rw [hp]
    dsimp only
    rw [hs]
    dsimp only
    rw [hring, ← haddr]
    generalize rdsDeliver env e rx (Unexp.ofInbound m.1 m.2 src p.addr ep.arrivals) = e'
    cases rdsPeerFind e' p.addr with
    | none => rfl
    | some q => exact aside_pollSlot env e' { q with rxHead := q.rxHead + 1 } _
  | @post _ iov addr tag ignore context flags tagged no hlen hrx hux =>
    refine ⟨{ ep with
      postings := ep.postings + 1
      unexp := Function.update ep.unexp tagged ((ep.unexp tagged).eraseP
        (fun ux => rdsMatches tagged rx ux.addr ux.hdr.tag)) }, no, rfl, ?_⟩
    show Ep.Aside _ (rdsPostRecv env ep iov addr tag ignore context flags tagged).1
    unfold rdsPostRecv rdsMatchUnexp
    rw [if_neg (not_lt.mpr hlen)]
    dsimp only
    rw [← hrx, hux]
    rfl

/-! ## What it comes to -/

/-- What a transfer leaves for the two applications: the bytes stored at the receiver, one
address at a time, and the completions of both. -/
structure Outcome where
  cells : List (ℕ × UInt8)
  received : List CqEntry
  sent : List CqEntry
  deriving DecidableEq, Repr

namespace SendReq

variable (r : SendReq)

/-- The flags of the receive completion. -/
def rxFlags : UInt64 :=
  fiRecv ||| (if r.tagged then fiTagged else fiMsg)
    ||| (if hasFlag r.flags fiRemoteCqData then fiRemoteCqData else 0)

/-- The receive completion: suppressed unless it is asked for or the message is truncated. -/
def received (cfg : EpCfg) (rx : RxEntry) (src : UInt64) : List CqEntry :=
  let err := if rx.totalLen < r.total then fiEtrunc.val else 0
  if hasFlag (rx.flags ||| cfg.rxOpFlags) fiCompletion ∨ err ≠ 0 then
    rxEntries cfg rx.context r.rxFlags (min r.total rx.totalLen) r.data r.tag src err
  else []

/-- **The outcome of a message that meets a receive**: the first bytes of the gathered source at
the addresses of the receive buffer, as many as there are of both; and the two completions. -/
def outcome (mem : ℕ → UInt8) (sender receiver : EpCfg) (rx : RxEntry) (src : UInt64) :
    Outcome where
  cells := (iovAddrs rx.iov).zip (gather mem r.iov)
  received := r.received receiver rx src
  sent := r.sent sender

/-- The flags of the receive completion are those the header carries. -/
theorem rxFlags_eq {hdr : Hdr} (h : hdr.flags = rdsHdrFlags r.tagged r.flags) :
    rdsRxFlags hdr = r.rxFlags := by
  unfold rdsRxFlags Hdr.tagged rxFlags rdsHdrFlags at *
  rw [h]
  cases r.tagged with
  | true =>
    cases hasFlag r.flags fiRemoteCqData with
    | true => rfl
    | false => rfl
  | false =>
    cases hasFlag r.flags fiRemoteCqData with
    | true => rfl
    | false => rfl

end SendReq

/-- A receive as `rds_post_recv` makes it. -/
structure RxEntry.Made (rx : RxEntry) : Prop where
  cnt : rx.iov.length ≤ rdsIovLimit
  total : rx.totalLen = ofiTotalIovLen rx.iov

/-- A length that fits a message fits its header. -/
theorem toNat_size {n : ℕ} (h : n ≤ rdsMaxMsgSize) : (UInt64.ofNat n).toNat = n := by
  rw [UInt64.toNat_ofNat']
  exact Nat.mod_eq_of_lt (h.trans_lt (by decide))

/-- **An eager message reports what the outcome says.** -/
theorem SendReq.entries_eager (r : SendReq) {rx : RxEntry} (hrx : rx.Made) (cfg : EpCfg)
    (mem : ℕ → UInt8) (src : SockAddr) (fi : UInt64) (no : ℕ) :
    (Unexp.ofInbound (r.eager mem).1 (r.eager mem).2 src fi no).entries cfg rx
      = r.received cfg rx fi := by
  have hdata : (Unexp.ofInbound (r.eager mem).1 (r.eager mem).2 src fi no).data
      = gather mem r.iov := rfl
  have hflags : rdsRxFlags (Unexp.ofInbound (r.eager mem).1 (r.eager mem).2 src fi no).hdr
      = r.rxFlags := r.rxFlags_eq rfl
  unfold Unexp.entries SendReq.received
  rw [hdata, hflags, length_gather, (cellsOf_ofiCopyToIov rx.iov (gather mem r.iov)).2,
    length_gather, ← hrx.total]
  rfl

/-- **And so does a rendezvous.** -/
theorem SendReq.entries_request (r : SendReq) (hmax : r.total ≤ rdsMaxMsgSize) {ep : Ep}
    (rx : RxEntry) (id : UInt64) (segs : List Seg) (peer : SockAddr) (fi : UInt64) (n : ℕ) :
    (rxPending ep rx (r.request id segs).1 peer fi n).entries ep.cfg = r.received ep.cfg rx fi := by
  have hsize : (r.request id segs).1.size.toNat = r.total := toNat_size hmax
  have hflags : rdsRxFlags (r.request id segs).1 = r.rxFlags := r.rxFlags_eq rfl
  unfold Pending.entries SendReq.received rxPending Pending.ofRequest
  dsimp only
  rw [hsize, hflags, Bool.not_not]
  rfl

/-! ## A transfer -/

/-- The datagram a parked operation is. -/
def Deferred.dgram? (self : SockAddr) : Deferred → Option Dgram
  | .fin peer id => some (finDgram self peer id)
  | .read .. => none

/-- The source segments a message describes; an eager one has none. -/
def segsOf (m : Message) : List Seg := decodeSegs m.1.segCnt.toNat m.2

/-- **One message, from the call that sends it to its last completion.** The call is accepted in
any state of the sender, on whatever path; what it handed over meets a receive in any state of
the receiver. Every RDMA operation this starts succeeds, each cookie starts at its chunk, and
what the receiver then has sent or parked arrives at the sender. -/
structure Transfer where
  envA : Env
  envB : Env
  sender : Ep
  receiver : Ep
  req : SendReq
  rx : RxEntry
  carrier : Carrier
  msg : Message
  /-- The sender after the call. -/
  called : Ep
  /-- The receiver after the message has met its receive. -/
  joined : Ep
  reads : List RdmaOp
  notices : List Notice
  /-- The datagrams of the receiver, and the environment in which they arrive. -/
  answers : List Dgram
  envC : Env
  /-- Where a cookie starts in the memory of the sender. -/
  base : UInt64 → ℕ
  call : req.call envA sender = (called, .ok)
  handed : sender.HandsOver called carrier
  carries : carrier.message? = some msg
  made : rx.Made
  joins : receiver.Joins envB sender.cfg.self msg rx carrier joined
  posts : envB.RdmaOk
  issued : joined.inflight = receiver.inflight ++ reads
  notified : (notices.map Notice.op).Perm reads
  succeed : ∀ n ∈ notices, n.status = 0
  chunks : ∀ (k : ℕ) s r, (segsOf msg)[k]? = some s → (chunksOf req.iov)[k]? = some r →
    base s.cookie = r.base
  answered : ∃ ds qs, (notices.foldl Ep.notice joined).wire = receiver.wire ++ ds
    ∧ (notices.foldl Ep.notice joined).deferred = receiver.deferred ++ qs
    ∧ answers = ds ++ qs.filterMap (Deferred.dgram? receiver.cfg.self)

namespace Transfer

variable (t : Transfer)

/-- The receiver in the end. -/
def finished : Ep := t.notices.foldl Ep.notice t.joined

/-- The sender in the end. -/
def completed : Ep := t.answers.foldl (fun ep d => ep.act (.recv t.envC d.src d.bytes)) t.called

/-- The address of the sender, as the receiver knows it. -/
def src : UInt64 := ofiIpAvGetFiAddr t.receiver.cfg t.sender.cfg.self

/-- **What a transfer has left**: what was copied and what was read, and the entries of both
completion queues. -/
structure Yields (o : Outcome) : Prop where
  cells : ∃ ws, t.finished.placed = t.receiver.placed ++ ws
    ∧ cellsOf ws ++ t.reads.flatMap (RdmaOp.cells t.envA.mem t.base) = o.cells
  received : t.finished.rxCq = t.receiver.rxCq ++ o.received
  sent : t.completed.txCq = t.sender.txCq ++ o.sent

/-- **Nothing is in the way of a transfer**: the receiver has memory, its socket may be full but
has no other failure, and the operations pending at an endpoint have different ids. -/
structure Smooth : Prop where
  alloc : t.envB.AllocOk ∧ ∀ n ∈ t.notices, n.env.AllocOk
  sock : t.envB.NoHardError ∧ ∀ n ∈ t.notices, n.env.NoHardError
  sender : (t.called.pending.map Pending.id).Nodup
  receiver : (t.joined.pending.map Pending.id).Nodup

end Transfer

/-- The operation linked last is found by its id. -/
theorem rdsPendingFind_last {ep : Ep} {l : List Pending} {p : Pending}
    (h : ep.pending = l ++ [p]) (hids : (ep.pending.map Pending.id).Nodup) :
    rdsPendingFind ep p.id = some p := by
  have hnot : ∀ q ∈ l, ¬ (q.id == p.id) = true := by
    intro q hq heq
    rw [h, List.map_append] at hids
    exact (List.nodup_append.mp hids).2.2 q.id (List.mem_map_of_mem hq) p.id (by simp)
      (by simpa using heq)
  unfold rdsPendingFind
  rw [h, List.find?_append, List.find?_eq_none.mpr hnot]
  simp

/-- A request that meets its receive starts its reads. -/
theorem rdsDeliver_request (env : Env) (ep : Ep) (rx : RxEntry) {m : Message}
    (hop : m.1.op ≠ rdsOpEager) (src : SockAddr) (fi : UInt64) (no : ℕ) :
    rdsDeliver env ep rx (Unexp.ofInbound m.1 m.2 src fi no)
      = rdsStartRndzvRead env (ep.log (.paired (Unexp.ofInbound m.1 m.2 src fi no) rx)) rx m.1
        (segsOf m) src fi := by
  have hsegs : (Unexp.ofInbound m.1 m.2 src fi no).segs = segsOf m := if_neg hop
  rw [rdsDeliver_rendezvous env ep rx hop, hsegs]
  rfl

/-- Two endpoints look the same from the outside: the same stores, completions and datagrams. -/
structure Ep.SameFront (ep ep' : Ep) : Prop where
  cfg : ep'.cfg = ep.cfg
  placed : ep'.placed = ep.placed
  rxCq : ep'.rxCq = ep.rxCq
  wire : ep'.wire = ep.wire
  deferred : ep'.deferred = ep.deferred

theorem Ep.Aside.sameFront {ep ep' : Ep} (h : ep.Aside ep') : ep.SameFront ep' where
  cfg := (congrArg Ep.cfg h :)
  placed := (congrArg Ep.placed h :)
  rxCq := (congrArg Ep.rxCq h :)
  wire := (congrArg Ep.wire h :)
  deferred := (congrArg Ep.deferred h :)

theorem Ep.SameFront.trans {e₁ e₂ e₃ : Ep} (h : e₁.SameFront e₂) (h' : e₂.SameFront e₃) :
    e₁.SameFront e₃ where
  cfg := h'.cfg.trans h.cfg
  placed := h'.placed.trans h.placed
  rxCq := h'.rxCq.trans h.rxCq
  wire := h'.wire.trans h.wire
  deferred := h'.deferred.trans h.deferred

/-- A receive is over, whatever happens before and after that is not seen from the outside. -/
theorem Ep.RxOver.within {e₁ e₂ e₃ e₄ : Ep} {p : Pending} (hpre : e₁.SameFront e₂)
    (h : e₂.RxOver p e₃) (hpost : e₃.SameFront e₄) : e₁.RxOver p e₄ where
  cfg := hpost.cfg.trans (h.cfg.trans hpre.cfg)
  placed := hpost.placed.trans (h.placed.trans hpre.placed)
  rxCq := by
    rw [hpost.rxCq, h.rxCq, hpre.rxCq, hpre.cfg]
  fin := by
    rw [hpost.wire, hpost.deferred, ← hpre.wire, ← hpre.deferred, ← hpre.cfg]
    exact h.fin

/-- **A rendezvous receive whose reads succeed is over in the end**, if it finds its operation
among those pending: at once, if there is nothing to read, and otherwise when its reads were
notified. -/
theorem rdsStartRndzvRead_over {env : Env} (henv : env.RdmaOk) (halloc : env.AllocOk)
    (hsock : env.NoHardError) {ep ep' : Ep} {rx : RxEntry} {hdr : Hdr} {segs : List Seg}
    {peer : SockAddr} {src : UInt64} {rs : List ReadReq}
    (hrs : rndzvReads rx.iov (min hdr.size.toNat rx.totalLen) 0 segs = rs)
    (hvec : ∀ x ∈ rs, x.liov ≠ [] ∧ x.liov.length ≤ rdsIovLimit) (hfew : rs.length < 2 ^ 32)
    (hafter : (rdsStartRndzvRead env ep rx hdr segs peer src).Aside ep')
    (hids : (ep'.pending.map Pending.id).Nodup) {reads : List RdmaOp}
    (hissued : ep'.inflight = ep.inflight ++ reads) {ns : List Notice}
    (hnotified : (ns.map Notice.op).Perm reads) (hstatus : ∀ n ∈ ns, n.status = 0)
    (halloc' : ∀ n ∈ ns, n.env.AllocOk) (hsock' : ∀ n ∈ ns, n.env.NoHardError) :
    reads = rs.map (fun x => x.op peer (succId ep.opId) hdr.id)
      ∧ ∃ k, ep.RxOver (rxPending ep rx hdr peer src k) (ns.foldl Ep.notice ep') := by
  obtain ⟨tick, hstart⟩ := rdsStartRndzvRead_accepted henv halloc ep rx hdr segs peer src hrs hvec
    hfew
  dsimp only at hstart
  generalize he : ({ ep.issued tick (rs.map (fun x => x.op peer (succId ep.opId) hdr.id)) with
    trace := ep.trace ++ [.rxOpen (succId ep.opId) (rx.totalLen < hdr.size.toNat)] } : Ep) = e
    at hstart
  have hfront : ep.SameFront e := by
    rw [← he]
    exact ⟨rfl, rfl, rfl, rfl, rfl⟩
  have hinflight : e.inflight
      = ep.inflight ++ rs.map (fun x => x.op peer (succId ep.opId) hdr.id) := by
    rw [← he]
    rfl
  rw [hstart] at hafter
  have hreads : ∀ e' : Ep, e'.inflight = e.inflight → e'.Aside ep' →
      reads = rs.map (fun x => x.op peer (succId ep.opId) hdr.id) := by
    intro e' he' haside
    have heq : ep'.inflight = e'.inflight := (congrArg Ep.inflight haside :)
    rw [heq, he', hinflight] at hissued
    exact (List.append_cancel_left hissued).symm
  by_cases hnil : rs = []
  · rw [if_pos hnil] at hafter
    obtain ⟨t, l, hfate, -⟩ := rdsRndzvRxFinalize_fate env e (rxPending ep rx hdr peer src 0)
    have hreads := hreads _ (congrArg Ep.inflight hfate :) hafter
    have hns : ns = [] := by
      rw [hreads, hnil] at hnotified
      exact List.map_eq_nil_iff.mp hnotified.eq_nil
    refine ⟨hreads, 0, ?_⟩
    rw [hns]
    exact .within hfront (rdsRndzvRxFinalize_over halloc hsock e _) hafter.sameFront
  · rw [if_neg hnil] at hafter
    have hreads := hreads (e.linkPending _) rfl hafter
    refine ⟨hreads, rs.length, ?_⟩
    set p := rxPending ep rx hdr peer src rs.length with hp
    have hpending : ep'.pending = e.pending ++ [p] := (congrArg Ep.pending hafter :)
    have hlen : ns.length = rs.length := by
      have h := hnotified.length_eq
      rw [hreads, List.length_map, List.length_map] at h
      exact h
    have hover : ep'.RxOver p (ns.foldl Ep.notice ep') := by
      refine Ep.notices_rndzvRx ns (rdsPendingFind_last hpending hids) rfl rfl ?_ ?_ ?_ hstatus
        halloc' hsock'
      · show (UInt32.ofNat rs.length).toNat = ns.length
        rw [UInt32.toNat_ofNat', Nat.mod_eq_of_lt hfew, hlen]
      · intro hns
        rw [hns] at hlen
        exact hnil (List.length_eq_zero_iff.mp hlen.symm)
      · intro n hn
        have hmem : n.op ∈ reads := hnotified.mem_iff.mp (List.mem_map_of_mem hn)
        rw [hreads] at hmem
        obtain ⟨x, -, hx⟩ := List.mem_map.mp hmem
        rw [← hx]
        rfl
    exact .within (hfront.trans ⟨hafter.sameFront.cfg, hafter.sameFront.placed,
      hafter.sameFront.rxCq, hafter.sameFront.wire, hafter.sameFront.deferred⟩) hover
      ⟨rfl, rfl, rfl, rfl, rfl⟩

namespace Transfer

variable {t : Transfer}

/-- **A transfer on an eager path**, whether by datagram or by slot. -/
theorem yields_of_eager (heager : t.req.Eager t.envA t.sender t.called) :
    t.Yields (t.req.outcome t.envA.mem t.sender.cfg t.receiver.cfg t.rx t.src) := by
  obtain ⟨⟨c, hover, hmsg⟩, htxCq⟩ := heager
  obtain rfl := hover.unique t.handed
  have hm : t.req.eager t.envA.mem = t.msg := Option.some_injective _ (hmsg.symm.trans t.carries)
  obtain ⟨e, no, haside, hafter⟩ := t.joins.deliver t.carries
  rw [← hm, rdsDeliver_eager t.envB e t.rx rfl] at hafter
  have hcfg : e.cfg = t.receiver.cfg := (congrArg Ep.cfg haside :)
  -- nothing is read, and nothing answered
  have hreads : t.reads = [] := by
    have hinflight : t.joined.inflight = t.receiver.inflight :=
      (congrArg Ep.inflight hafter :).trans (congrArg Ep.inflight haside :)
    have hissued := t.issued
    rw [hinflight] at hissued
    simpa using hissued
  have hnotices : t.notices = [] := by
    have hperm := t.notified
    rw [hreads] at hperm
    exact List.map_eq_nil_iff.mp hperm.eq_nil
  have hfinished : t.finished = t.joined := by
    unfold finished
    rw [hnotices]
    rfl
  have hanswers : t.answers = [] := by
    obtain ⟨ds, qs, hwire, hdeferred, hanswers⟩ := t.answered
    rw [hnotices] at hwire hdeferred
    have hwire' : t.joined.wire = t.receiver.wire :=
      (congrArg Ep.wire hafter :).trans (congrArg Ep.wire haside :)
    have hdeferred' : t.joined.deferred = t.receiver.deferred :=
      (congrArg Ep.deferred hafter :).trans (congrArg Ep.deferred haside :)
    have hds : ds = [] := by simpa [hwire'] using hwire
    have hqs : qs = [] := by simpa [hdeferred'] using hdeferred
    rw [hanswers, hds, hqs]
    rfl
  have hcompleted : t.completed = t.called := by
    unfold completed
    rw [hanswers]
    rfl
  refine ⟨⟨(ofiCopyToIov t.rx.iov 0 (gather t.envA.mem t.req.iov)).1, ?_, ?_⟩, ?_, ?_⟩
  · rw [hfinished]
    exact (congrArg Ep.placed hafter :).trans (congrArg (· ++ _) (congrArg Ep.placed haside :))
  · rw [hreads, List.flatMap_nil, List.append_nil]
    exact (cellsOf_ofiCopyToIov _ _).1
  · rw [hfinished]
    refine (congrArg Ep.rxCq hafter :).trans ?_
    rw [t.req.entries_eager t.made, hcfg]
    exact congrArg (· ++ _) (congrArg Ep.rxCq haside :)
  · rw [hcompleted]
    exact htxCq

/-- **The receiver of a request** has started one read for each piece, and after the
notifications its receive is over. -/
theorem receiver_of_requested (hsmooth : t.Smooth) (hmax : t.req.total ≤ rdsMaxMsgSize)
    {id : UInt64} {segs : List Seg} (hm : t.req.request id segs = t.msg)
    (hshapes : List.Forall₂ Seg.Shapes segs (chunksOf t.req.iov))
    (hsize : segs.length * rdsSegSize ≤ rdsMaxEagerSize) :
    t.reads.flatMap (RdmaOp.cells t.envA.mem t.base)
        = (iovAddrs t.rx.iov).zip (gather t.envA.mem t.req.iov)
      ∧ t.finished.placed = t.receiver.placed
      ∧ t.finished.rxCq = t.receiver.rxCq ++ t.req.received t.receiver.cfg t.rx t.src
      ∧ t.answers = [finDgram t.receiver.cfg.self t.sender.cfg.self id] := by
  -- the segments are read back, and stand for the chunks
  have hcnt : (t.req.request id segs).1.segCnt.toNat = segs.length := by
    show (UInt16.ofNat segs.length).toNat = segs.length
    rw [UInt16.toNat_ofNat', Nat.mod_eq_of_lt]
    unfold rdsSegSize rdsMaxEagerSize rdsKernelSegMax rdsHdrSize at hsize
    omega
  have hsegs : segsOf t.msg = segs := by
    have h := decodeSegs_encodeSegs segs []
    rw [List.append_nil] at h
    rw [← hm, segsOf, hcnt]
    exact h
  have hchunks := t.chunks
  rw [hsegs] at hchunks
  have hstand := standsFor_of_shapes hshapes hchunks
  have hlen : (t.req.request id segs).1.size.toNat = t.req.total := toNat_size hmax
  have heff : min (t.req.request id segs).1.size.toNat t.rx.totalLen
      = min (ofiTotalIovLen t.req.iov) (ofiTotalIovLen t.rx.iov) := by
    rw [hlen, t.made.total]
    rfl
  -- one read for each window, all accepted
  obtain ⟨rs, hrs⟩ : ∃ rs, rndzvReads t.rx.iov
      (min (t.req.request id segs).1.size.toNat t.rx.totalLen) 0 segs = rs := ⟨_, rfl⟩
  have hvec : ∀ x ∈ rs, x.liov ≠ [] ∧ x.liov.length ≤ rdsIovLimit := by
    rw [← hrs, heff]
    exact cnt_of_mem_rndzvReads hstand (Nat.min_le_right _ _) 0
  have hfew : rs.length < 2 ^ 32 := by
    have hle := length_rndzvReads t.rx.iov
      (min (t.req.request id segs).1.size.toNat t.rx.totalLen) 0 segs
    rw [hrs] at hle
    unfold rdsSegSize rdsMaxEagerSize rdsKernelSegMax rdsHdrSize at hsize
    omega
  obtain ⟨e, no, haside, hafter⟩ := t.joins.deliver t.carries
  rw [rdsDeliver_request t.envB e t.rx (by rw [← hm]; exact nofun), hsegs, ← hm] at hafter
  generalize hlog : e.log _ = e₀ at hafter
  have hfront : t.receiver.SameFront e₀ := by
    rw [← hlog]
    exact haside.sameFront.trans ⟨rfl, rfl, rfl, rfl, rfl⟩
  have hinflight : e₀.inflight = t.receiver.inflight := by
    rw [← hlog]
    exact (congrArg Ep.inflight haside :)
  have hissued := t.issued
  rw [← hinflight] at hissued
  obtain ⟨hreads, k, hover⟩ := rdsStartRndzvRead_over t.posts hsmooth.alloc.1 hsmooth.sock.1 hrs
    hvec hfew hafter hsmooth.receiver hissued t.notified t.succeed hsmooth.alloc.2 hsmooth.sock.2
  have hover : t.receiver.RxOver _ t.finished := .within hfront hover ⟨rfl, rfl, rfl, rfl, rfl⟩
  refine ⟨?_, hover.placed, ?_, ?_⟩
  · rw [hreads, List.flatMap_map, ← hrs, heff]
    exact cells_rendezvous t.made.cnt hstand _ _ _ _
  · have hentries : (rxPending e₀ t.rx (t.req.request id segs).1 t.sender.cfg.self t.src k).entries
        e₀.cfg = t.req.received e₀.cfg t.rx t.src := t.req.entries_request hmax t.rx id segs _ _ k
    rw [hfront.cfg] at hentries
    exact hover.rxCq.trans (congrArg (t.receiver.rxCq ++ ·) hentries)
  · obtain ⟨ds, qs, hwire, hdeferred, hanswers⟩ := t.answered
    rw [hanswers]
    obtain ⟨hwire', hdeferred'⟩ | ⟨hwire', hdeferred'⟩ := hover.fin
    · have hds := List.append_cancel_left (hwire.symm.trans hwire')
      have hqs : qs = [] := by
        have h := hdeferred.symm.trans hdeferred'
        simpa using h
      rw [hds, hqs]
      rfl
    · have hds : ds = [] := by
        have h := hwire.symm.trans hwire'
        simpa using h
      have hqs := List.append_cancel_left (hdeferred.symm.trans hdeferred')
      rw [hds, hqs]
      rfl

/-- **A transfer by rendezvous**, whether its request went by datagram or by slot. -/
theorem yields_of_requested (hsmooth : t.msg.1.op = rdsOpRts → t.Smooth)
    (hmax : t.req.total ≤ rdsMaxMsgSize) (hreq : t.req.Requested t.sender t.called) :
    t.Yields (t.req.outcome t.envA.mem t.sender.cfg t.receiver.cfg t.rx t.src) := by
  obtain ⟨⟨segs, hshapes, hsize, c, hover, hmsg⟩, hcfg, htxCq, mrs, cached, hpending⟩ := hreq
  obtain rfl := hover.unique t.handed
  have hm : t.req.request (succId t.sender.opId) segs = t.msg :=
    Option.some_injective _ (hmsg.symm.trans t.carries)
  have hsmooth : t.Smooth := hsmooth (by rw [← hm]; rfl)
  obtain ⟨hcells, hplaced, hrxCq, hanswers⟩ :=
    receiver_of_requested hsmooth hmax hm hshapes hsize
  refine ⟨⟨[], ?_, ?_⟩, hrxCq, ?_⟩
  · rw [List.append_nil]
    exact hplaced
  · exact hcells
  · -- the `FIN` finds the send
    have hfind := rdsPendingFind_last hpending hsmooth.sender
    have hcompleted : t.completed = rdsPendingComplete t.called
        (txPending (succId t.sender.opId) t.req.context t.req.tagged
          (t.req.reported t.sender.cfg) t.req.total mrs cached) := by
      unfold completed
      rw [hanswers]
      exact rdsRecvDgram_fin t.envC hfind rfl _
    rw [hcompleted, txCq_rdsPendingComplete, htxCq, hcfg]
    refine congrArg (t.sender.txCq ++ ·) ?_
    show _ = t.req.sent t.sender.cfg
    unfold SendReq.sent
    cases hrep : t.req.reported t.sender.cfg with
    | true => rfl
    | false => rfl

/-- **Whichever path carries a message, the outcome is the same.** In every transfer, the receive
buffer gets the first bytes of the gathered source, as many as there are of both and in order,
and nothing else is stored; and the two completions are those the outcome says, which does not
mention the path. Only a rendezvous needs that nothing is in its way. -/
theorem outcome_same (t : Transfer) (hsmooth : t.msg.1.op = rdsOpRts → t.Smooth) :
    t.Yields (t.req.outcome t.envA.mem t.sender.cfg t.receiver.cfg t.rx t.src) := by
  obtain ⟨hmax, heager | hreq⟩ := t.req.accepted t.call
  · exact yields_of_eager heager
  · exact yields_of_requested hsmooth hmax hreq

end Transfer

/-! ## Four transfers of one message -/

/-- The transfer of a message to a receiver that has nothing under way, its reads notified in the
order they were issued. -/
def Transfer.trial (envA envB envC : Env) (sender receiver : Ep) (req : SendReq) (rx : RxEntry)
    (c : Carrier) (m : Message) (x : EpAct) (base : UInt64 → ℕ)
    (hidle : receiver.inflight = [] ∧ receiver.wire = [] ∧ receiver.deferred = [])
    (hcall : (req.call envA sender).2 = .ok) (hhanded : sender.HandsOver (req.call envA sender).1 c)
    (hm : c.message? = some m) (hmade : rx.Made)
    (hjoins : receiver.Joins envB sender.cfg.self m rx c (receiver.act x)) (hposts : envB.RdmaOk)
    (hchunks : ∀ y ∈ (segsOf m).zip (chunksOf req.iov), base y.1.cookie = y.2.base) : Transfer where
  envA := envA
  envB := envB
  sender := sender
  receiver := receiver
  req := req
  rx := rx
  carrier := c
  msg := m
  called := (req.call envA sender).1
  joined := receiver.act x
  reads := (receiver.act x).inflight
  notices := (receiver.act x).inflight.map (fun op => ⟨envC, op, 0⟩)
  answers :=
    let done := ((receiver.act x).inflight.map (fun op => ⟨envC, op, 0⟩)).foldl Ep.notice
      (receiver.act x)
    done.wire ++ done.deferred.filterMap (Deferred.dgram? receiver.cfg.self)
  envC := envC
  base := base
  call := Prod.ext rfl hcall
  handed := hhanded
  carries := hm
  made := hmade
  joins := hjoins
  posts := hposts
  issued := by rw [hidle.1, List.nil_append]
  notified := by simp [Function.comp_def]
  succeed := by simp
  chunks k s r hs hr := hchunks (s, r)
    (List.mem_iff_getElem?.mpr ⟨k, List.getElem?_zip_eq_some.mpr ⟨hs, hr⟩⟩)
  answered := ⟨_, _, by rw [hidle.2.1, List.nil_append], by rw [hidle.2.2, List.nil_append], rfl⟩

namespace PathTrial

/-- The sender's memory holds the low byte of each address. -/
def env : Env := { Env.calm numberCookies with mem := UInt8.ofNat }

/-- A hundred bytes in three pieces, one of them empty. -/
def req : SendReq where
  iov := [⟨4096, 60⟩, ⟨5000, 0⟩, ⟨6000, 40⟩]
  destAddr := 1
  tag := 7
  data := 9
  context := 3
  flags := fiRemoteCqData
  tagged := true

/-- A receive with room for a hundred and twenty, cut elsewhere. -/
def rx : RxEntry where
  context := 4
  iov := [⟨100, 30⟩, ⟨200, 0⟩, ⟨300, 90⟩]
  totalLen := 120
  tag := 7
  ignore := 0
  addr := fiAddrUnspec
  flags := 0
  no := 0

/-- Slots that have room for the request, but not for the message. -/
def narrow : RingGeom :=
  { RingGeom.standard with slotSize := 124, slotSize_min := by decide }

/-- The sender, with a limit for eager datagrams. -/
def sender (limit : ℕ) : Ep :=
  Ep.init { EpCfg.standard false [10, 20] 10 with eagerSize := limit }
    (Domain.opened false (some 3) 0 0)

/-- The receiver. -/
def receiver : Ep :=
  { Ep.init (EpCfg.standard false [10, 20] 20) (Domain.opened false (some 3) 0 0) with
    posted := fun _ => [rx] }

/-- The datagram a call put on the wire. -/
def dgramOf (ep : Ep) : List UInt8 := ((ep.wire.map Dgram.bytes).getLast?).getD []

/-- Where the cookies of the two chunks start. -/
def base (cookie : UInt64) : ℕ := if cookie = 1 then 4096 else 6000

/-- The request for the message. -/
def request : Message := req.request 1 [⟨1, 0, 60⟩, ⟨2, 0, 40⟩]

/-- The message in a datagram. -/
def eagerDgram : Transfer :=
  .trial env env env (sender 65536) receiver req rx
    (.dgram (dgramOf (req.call env (sender 65536)).1)) (req.eager env.mem)
    (.recv env 10 (dgramOf (req.call env (sender 65536)).1)) base ⟨rfl, rfl, rfl⟩
    (by decide +kernel) ⟨by decide +kernel, [], 20, by decide +kernel⟩ (by decide +kernel)
    ⟨by decide, by decide⟩ (.recv (by unfold Ep.Awaits; decide +kernel)) (fun _ _ => rfl)
    (by decide +kernel)

/-- The message by rendezvous, its request in a datagram. -/
def requestDgram (envB envC : Env) (hposts : envB.RdmaOk) : Transfer :=
  .trial env envB envC (sender 0) receiver req rx
    (.dgram (dgramOf (req.call env (sender 0)).1)) request
    (.recv envB 10 (dgramOf (req.call env (sender 0)).1)) base ⟨rfl, rfl, rfl⟩
    (by decide +kernel) ⟨by decide +kernel, [], 20, by decide +kernel⟩ (by decide +kernel)
    ⟨by decide, by decide⟩ (.recv (by unfold Ep.Awaits; decide +kernel)) hposts
    (by decide +kernel)

/-- What a ring holds of a peer that is ready. -/
def peer (addr : UInt64) (sa : SockAddr) (g : RingGeom) : Peer :=
  { Peer.blank addr sa with state := .ready, remSlots := g.slots, remSlotSize := g.slotSize }

/-- The sender, with a ring. -/
def ringSender (g : RingGeom) : Ep :=
  { Ep.init { EpCfg.standard true [10, 20] 10 with geom := g }
      (Domain.opened false (some 3) 0 0) with peers := [peer 1 20 g] }

/-- The slot a call posted. -/
def slotOf (ep : Ep) : RingSlot :=
  match ep.writes.getLast?.map RdmaOp.loc with
  | some (.stage _ s) => s
  | _ => RingSlot.zero

/-- The record of the sender at the receiver, with a slot that has landed. -/
def landed (g : RingGeom) : Peer :=
  { peer 0 10 g with rxRing := fun _ => slotOf (req.call env (ringSender g)).1 }

/-- The receiver, with a ring. -/
def ringReceiver (g : RingGeom) : Ep :=
  { Ep.init { EpCfg.standard true [10, 20] 20 with geom := g }
      (Domain.opened false (some 3) 0 0) with peers := [landed g], posted := fun _ => [rx] }

/-- The message in a slot. -/
def eagerSlot : Transfer :=
  .trial env env env (ringSender .standard) (ringReceiver .standard) req rx
    (.slot (slotOf (req.call env (ringSender .standard)).1)) (req.eager env.mem) (.poll env 0) base
    ⟨rfl, rfl, rfl⟩ (by decide +kernel) ⟨peer 1 20 .standard, by decide +kernel⟩
    (by decide +kernel) ⟨by decide, by decide⟩
    (.poll (p := landed .standard) rfl (by decide +kernel) rfl (by decide +kernel)
      (by unfold Ep.Awaits; decide +kernel)) (fun _ _ => rfl) (by decide +kernel)

/-- The message by rendezvous, its request in a slot. -/
def requestSlot : Transfer :=
  .trial env env env (ringSender narrow) (ringReceiver narrow) req rx
    (.slot (slotOf (req.call env (ringSender narrow)).1)) request (.poll env 0) base
    ⟨rfl, rfl, rfl⟩ (by decide +kernel) ⟨peer 1 20 narrow, by decide +kernel⟩
    (by decide +kernel) ⟨by decide, by decide⟩
    (.poll (p := landed narrow) rfl (by decide +kernel) rfl (by decide +kernel)
      (by unfold Ep.Awaits; decide +kernel)) (fun _ _ => rfl) (by decide +kernel)

/-- What the message comes to on every path. -/
def outcome : Outcome :=
  req.outcome env.mem (EpCfg.standard false [10, 20] 10) (EpCfg.standard false [10, 20] 20) rx 0

theorem env_calm : env.AllocOk ∧ env.NoHardError := ⟨fun _ => rfl, nofun⟩

/-- In a calm environment nothing is in the way but, perhaps, an id. -/
theorem smooth {t : Transfer} (henvB : t.envB = env) (henvC : ∀ n ∈ t.notices, n.env = env)
    (hsender : (t.called.pending.map Pending.id).Nodup)
    (hreceiver : (t.joined.pending.map Pending.id).Nodup) : t.Smooth where
  alloc := ⟨by rw [henvB]; exact env_calm.1, fun n hn => by rw [henvC n hn]; exact env_calm.1⟩
  sock := ⟨by rw [henvB]; exact env_calm.2, fun n hn => by rw [henvC n hn]; exact env_calm.2⟩
  sender := hsender
  receiver := hreceiver

/-- The message takes each of the four ways, with one outcome. -/
theorem four_ways : eagerDgram.Yields outcome ∧ eagerSlot.Yields outcome
    ∧ (requestDgram env env (fun _ _ => rfl)).Yields outcome ∧ requestSlot.Yields outcome := by
  have heager : eagerDgram.msg.1.op ≠ rdsOpRts ∧ eagerSlot.msg.1.op ≠ rdsOpRts := by decide +kernel
  have hdgram : (requestDgram env env (fun _ _ => rfl)).Smooth :=
    smooth rfl (by simp [requestDgram, Transfer.trial]) (by decide +kernel) (by decide +kernel)
  have hslot : requestSlot.Smooth :=
    smooth rfl (by simp [requestSlot, Transfer.trial]) (by decide +kernel) (by decide +kernel)
  have hsame : ∀ o, o = outcome → ∀ t : Transfer, t.Yields o → t.Yields outcome :=
    fun o ho t h => ho ▸ h
  exact ⟨hsame _ (by decide +kernel) _ (Transfer.outcome_same eagerDgram (absurd · heager.1)),
    hsame _ (by decide +kernel) _ (Transfer.outcome_same eagerSlot (absurd · heager.2)),
    hsame _ (by decide +kernel) _ (Transfer.outcome_same _ fun _ => hdgram),
    hsame _ (by decide +kernel) _ (Transfer.outcome_same requestSlot fun _ => hslot)⟩

/-- A rendezvous with a receiver that has no memory. -/
def noMemory : Transfer := requestDgram { env with alloc := fun _ => false } env (fun _ _ => rfl)

/-- An environment whose socket takes RDMA operations, but fails on datagrams. -/
def noDgrams : Env :=
  { env with sendmsg := fun _ op => if op.rdma?.isSome then none else some fiEio }

/-- A rendezvous whose `FIN` is lost. -/
def finLost : Transfer := requestDgram env noDgrams (fun _ _ => rfl)

/-- A sender that has drawn almost all ids, and has an operation pending under the first. -/
def oldSender : Ep :=
  { sender 0 with
    opId := 0xffffffffffffffff
    idsGiven := 2 ^ 64 - 1
    pending := [txPending 1 8 false true 4 [] false] }

/-- A rendezvous under an id that is in use. -/
def idReused : Transfer :=
  .trial env env env oldSender receiver req rx
    (.dgram (dgramOf (req.call env oldSender).1)) request
    (.recv env 10 (dgramOf (req.call env oldSender).1)) base ⟨rfl, rfl, rfl⟩
    (by decide +kernel) ⟨by decide +kernel, [], 20, by decide +kernel⟩ (by decide +kernel)
    ⟨by decide, by decide⟩ (.recv (by unfold Ep.Awaits; decide +kernel)) (fun _ _ => rfl)
    (by decide +kernel)

/-- **The long path can fail where the short ones do not.** Without memory at the receiver the
receive ends with an error and no bytes; without a `FIN` the send does not end; and under an id
that is in use the `FIN` ends another send. -/
theorem long_path_fails : eagerDgram.finished.rxCq = outcome.received
    ∧ noMemory.finished.rxCq = [⟨4, req.rxFlags, 0, 9, 7, none, fiEnomem⟩]
    ∧ ¬ noMemory.Yields outcome
    ∧ finLost.completed.txCq = [] ∧ ¬ finLost.Yields outcome
    ∧ idReused.completed.txCq.map CqEntry.context = [8] ∧ ¬ idReused.Yields outcome :=
  ⟨by decide +kernel, by decide +kernel, fun h => absurd h.received (by decide +kernel),
    by decide +kernel, fun h => absurd h.sent (by decide +kernel), by decide +kernel,
    fun h => absurd h.sent (by decide +kernel)⟩

end PathTrial
