import RdsProv.Progress
import RdsProv.Send
import RdsProv.Rma

/-!
# What each function can do

One lemma for each function of the endpoint says everything it can come to, with the conditions
that the proofs use. It is the only place where the function is unfolded for that: a relation
between endpoints, an invariant or a measure is shown of the function from its lemma. Where the
outcome is one of a few states the lemma is a disjunction; where what follows depends on another
function it is an elimination rule, whose premises are the ways through the code.
-/

/-! ## Completions -/

/-- What `rds_cq_write_tx` adds to the queue of an endpoint. -/
def txEntries (cfg : EpCfg) (context : ℕ) (flags : UInt64) (len err : ℕ) : List CqEntry :=
  if cfg.hasTxCq then [⟨context, flags, len, 0, 0, none, err⟩] else []

theorem rdsCqWriteTx_eq (ep : Ep) (context : ℕ) (flags : UInt64) (len err : ℕ) :
    rdsCqWriteTx ep context flags len err
      = { ep with txCq := ep.txCq ++ txEntries ep.cfg context flags len err } := by
  unfold rdsCqWriteTx txEntries
  split
  · rfl
  · rw [List.append_nil]

/-- What `rds_cq_write_rx` adds to the queue of an endpoint. -/
def rxEntries (cfg : EpCfg) (context : ℕ) (flags : UInt64) (len : ℕ) (data tag src : UInt64)
    (err : ℕ) : List CqEntry :=
  if cfg.hasRxCq then
    [⟨context, flags, len, data, tag,
      if err = 0 && hasFlag cfg.caps fiSource then some src else none, err⟩]
  else []

theorem rdsCqWriteRx_eq (ep : Ep) (context : ℕ) (flags : UInt64) (len : ℕ)
    (data tag src : UInt64) (err : ℕ) :
    rdsCqWriteRx ep context flags len data tag src err
      = { ep with rxCq := ep.rxCq ++ rxEntries ep.cfg context flags len data tag src err } := by
  unfold rdsCqWriteRx rxEntries
  split
  · rfl
  · rw [List.append_nil]

/-- **Completing an operation** writes its entry unless it was not to be reported, gives back a
send's place and its registrations, and unlinks it. -/
theorem rdsPendingComplete_eq (ep : Ep) (p : Pending) :
    rdsPendingComplete ep p = { ep with
      txCq := ep.txCq ++ if (p.type = .rndzvTx ∨ p.type = .rma) ∧ !p.noComp then
        txEntries ep.cfg p.context p.flags p.len p.error else []
      rndzvTxInflight := if p.type = .rndzvTx ∧ ep.rndzvTxInflight ≠ 0 then
        ep.rndzvTxInflight - 1 else ep.rndzvTxInflight
      trace := ep.trace ++ if p.type = .rndzvTx then [.txDone p.id] else []
      domain := rdsUnregChunks p.cached ep.domain p.mrs
      pending := ep.pending.eraseP (·.id == p.id) } := by
  have hreport : (if (p.type = .rndzvTx ∨ p.type = .rma) ∧ !p.noComp then
        rdsCqWriteTx ep p.context p.flags p.len p.error else ep)
      = { ep with txCq := ep.txCq ++ if (p.type = .rndzvTx ∨ p.type = .rma) ∧ !p.noComp then
          txEntries ep.cfg p.context p.flags p.len p.error else [] } := by
    split
    · exact rdsCqWriteTx_eq ep _ _ _ _
    · rw [List.append_nil]
  unfold rdsPendingComplete
  rw [hreport]
  generalize (ep.txCq ++ if (p.type = .rndzvTx ∨ p.type = .rma) ∧ !p.noComp then _ else _) = txCq
  dsimp only
  by_cases htype : p.type = .rndzvTx
  · rw [if_pos htype, if_pos htype]
    split
    · rfl
    · rfl
  · have hcount : ¬ (p.type = .rndzvTx ∧ ep.rndzvTxInflight ≠ 0) := fun h => htype h.1
    rw [if_neg htype, if_neg htype, if_neg hcount, if_neg hcount, List.append_nil]
    rfl

theorem txCq_rdsPendingComplete (ep : Ep) (p : Pending) :
    (rdsPendingComplete ep p).txCq = ep.txCq
      ++ if (p.type = .rndzvTx ∨ p.type = .rma) ∧ !p.noComp then
        txEntries ep.cfg p.context p.flags p.len p.error else [] := by
  rw [rdsPendingComplete_eq]

/-- What an operation reports when it is finalized. -/
def Pending.entries (cfg : EpCfg) (p : Pending) : List CqEntry :=
  if !p.noComp ∨ p.error ≠ 0 then
    rxEntries cfg p.context p.flags p.len p.data p.tag p.addr p.error
  else []

/-- What an eager message reports to the receive that takes it. -/
def Unexp.entries (cfg : EpCfg) (m : Unexp) (rx : RxEntry) : List CqEntry :=
  let err := if rx.totalLen < m.data.length then fiEtrunc.val else 0
  if hasFlag (rx.flags ||| cfg.rxOpFlags) fiCompletion ∨ err ≠ 0 then
    rxEntries cfg rx.context (rdsRxFlags m.hdr) (ofiCopyToIov rx.iov 0 m.data).2 m.hdr.data
      m.hdr.tag m.addr err
  else []

/-- **Finalizing a receive** sends its `FIN`, writes its completion and records the end. -/
theorem rdsRndzvRxFinalize_eq (env : Env) (ep : Ep) (p : Pending) {e : Ep}
    (hfin : rdsSendFin env ep p.peer p.peerId = e) :
    rdsRndzvRxFinalize env ep p = { e with
      rxCq := e.rxCq ++ p.entries e.cfg
      trace := e.trace ++ [.rxDone p.id (p.entries e.cfg)] } := by
  unfold rdsRndzvRxFinalize Pending.entries
  rw [hfin]
  dsimp only
  split
  · rw [rdsCqWriteRx_eq, Ep.log, List.drop_left]
  · rw [List.append_nil, Ep.log, List.drop_length]

/-- **An eager message that meets its receive is copied out.** -/
theorem rdsDeliver_eager (env : Env) (ep : Ep) (rx : RxEntry) {m : Unexp}
    (hop : m.hdr.op = rdsOpEager) :
    rdsDeliver env ep rx m = { ep with
      placed := ep.placed ++ (ofiCopyToIov rx.iov 0 m.data).1
      rxCq := ep.rxCq ++ m.entries ep.cfg rx
      trace := ep.trace ++ [.paired m rx] } := by
  unfold rdsDeliver rdsDeliverEager Unexp.entries
  rw [if_pos hop]
  dsimp only
  generalize (if rx.totalLen < m.data.length then fiEtrunc.val else 0) = err
  by_cases hreport : hasFlag (rx.flags ||| ep.cfg.rxOpFlags) fiCompletion = true ∨ err ≠ 0
  · rw [if_pos hreport]
    refine (if_pos hreport).trans ?_
    rw [rdsCqWriteRx_eq]
    rfl
  · rw [if_neg hreport, List.append_nil]
    exact if_neg hreport

theorem rdsDeliver_rendezvous (env : Env) (ep : Ep) (rx : RxEntry) {m : Unexp}
    (hop : m.hdr.op ≠ rdsOpEager) :
    rdsDeliver env ep rx m
      = rdsStartRndzvRead env (ep.log (.paired m rx)) rx m.hdr m.segs m.src m.addr :=
  if_neg hop

/-- **A matched pair** is an eager message, which is copied out, or a request, whose reads
start. -/
@[elab_as_elim]
theorem rdsDeliver_elim {motive : Ep → Prop} {env : Env} {ep : Ep} {rx : RxEntry} {m : Unexp}
    (eager : m.hdr.op = rdsOpEager → motive { ep with
      placed := ep.placed ++ (ofiCopyToIov rx.iov 0 m.data).1
      rxCq := ep.rxCq ++ m.entries ep.cfg rx
      trace := ep.trace ++ [.paired m rx] })
    (request : m.hdr.op ≠ rdsOpEager → motive (rdsStartRndzvRead env (ep.log (.paired m rx)) rx
      m.hdr m.segs m.src m.addr)) : motive (rdsDeliver env ep rx m) := by
  by_cases hop : m.hdr.op = rdsOpEager
  · rw [rdsDeliver_eager env ep rx hop]
    exact eager hop
  · rw [rdsDeliver_rendezvous env ep rx hop]
    exact request hop

/-! ## The socket and its helpers -/

/-- What a refused `sendmsg` returns is an error. -/
theorem exists_sockRet (e : ℕ+) : ∃ e', sockRet e = .err e' := by
  unfold sockRet
  split
  · exact ⟨_, rfl⟩
  · exact ⟨_, rfl⟩

/-- **A datagram is accepted, and then it is on the wire, or refused.** -/
theorem Ep.sendDgram_cases (env : Env) (ep : Ep) (dst : SockAddr) (bytes : List UInt8) :
    (env.sendmsg ep.tick (.dgram dst bytes) = none
        ∧ ep.sendDgram env dst bytes = ({ ep with
            tick := ep.tick + 1, wire := ep.wire ++ [⟨ep.cfg.self, dst, bytes⟩] }, .ok))
      ∨ ∃ e e', env.sendmsg ep.tick (.dgram dst bytes) = some e ∧ sockRet e = .err e'
        ∧ ep.sendDgram env dst bytes = ({ ep with tick := ep.tick + 1 }, .err e') := by
  unfold Ep.sendDgram Ep.sendmsg
  cases h : env.sendmsg ep.tick (.dgram dst bytes) with
  | none => exact .inl ⟨rfl, rfl⟩
  | some e =>
    obtain ⟨e', he'⟩ := exists_sockRet e
    refine .inr ⟨e, e', rfl, he', ?_⟩
    dsimp only
    rw [he']

/-- **An RDMA operation is ill-formed, refused, or accepted**, and then it awaits
its notification or its landing. -/
theorem rdsPostRdma_cases (env : Env) (ep : Ep) (op : RdmaOp) :
    ((op.loc.cnt = 0 ∨ rdsIovLimit < op.loc.cnt)
        ∧ rdsPostRdma env ep op = (ep, .err fiEinval))
      ∨ (∃ e e', env.sendmsg ep.tick (.rdma op) = some e ∧ sockRet e = .err e'
        ∧ rdsPostRdma env ep op = ({ ep with tick := ep.tick + 1 }, .err e'))
      ∨ (env.sendmsg ep.tick (.rdma op) = none ∧ op.notify = true
        ∧ rdsPostRdma env ep op
          = ({ ep with tick := ep.tick + 1, inflight := ep.inflight ++ [op] }, .ok))
      ∨ (env.sendmsg ep.tick (.rdma op) = none ∧ op.notify = false
        ∧ rdsPostRdma env ep op
          = ({ ep with tick := ep.tick + 1, writes := ep.writes ++ [op] }, .ok)) := by
  unfold rdsPostRdma Ep.sendmsg
  by_cases hcnt : op.loc.cnt = 0 ∨ rdsIovLimit < op.loc.cnt
  · rw [if_pos hcnt]
    exact .inl ⟨hcnt, rfl⟩
  rw [if_neg hcnt]
  refine .inr ?_
  cases h : env.sendmsg ep.tick (.rdma op) with
  | some e =>
    obtain ⟨e', he'⟩ := exists_sockRet e
    refine .inl ⟨e, e', rfl, he', ?_⟩
    dsimp only
    rw [he']
  | none =>
    cases hnotify : op.notify with
    | true => exact .inr (.inl ⟨rfl, rfl, rfl⟩)
    | false => exact .inr (.inr ⟨rfl, rfl, rfl⟩)

/-- What `sendmsg` maps to anything but "try again" is a hard error. -/
theorem eq_fiEagain_of_sockRet {env : Env} (hsoft : env.NoHardError) {t : ℕ} {op : SockOp}
    {e e' : ℕ+} (hsend : env.sendmsg t op = some e) (hret : sockRet e = .err e') :
    e' = fiEagain := by
  unfold sockRet at hret
  rw [if_pos (hsoft _ _ _ hsend)] at hret
  cases hret
  rfl

/-- The datagram of a `FIN`. -/
def finDgram (src dst : SockAddr) (id : UInt64) : Dgram := ⟨src, dst, (finHdr id).encode⟩

/-- **A `FIN` is sent, parked, or lost**, and lost only to a hard error of the
socket or a failed allocation. -/
theorem rdsSendFin_cases (env : Env) (ep : Ep) (peer : SockAddr) (id : UInt64) :
    rdsSendFin env ep peer id = { ep with
        tick := ep.tick + 1, wire := ep.wire ++ [finDgram ep.cfg.self peer id] }
      ∨ rdsSendFin env ep peer id = { ep with
        tick := ep.tick + 2, deferred := ep.deferred ++ [.fin peer id] }
      ∨ ((¬ env.NoHardError ∨ ¬ env.AllocOk) ∧ ∃ t, rdsSendFin env ep peer id = { ep with
        tick := t, trace := ep.trace ++ [.finLost peer id] }) := by
  unfold rdsSendFin rdsSendFinRaw
  rcases ep.sendDgram_cases env peer (finHdr id).encode with ⟨-, h⟩ | ⟨e, e', hsend, hret, h⟩
  · rw [h]
    exact .inl rfl
  rw [h]
  refine .inr ?_
  dsimp only
  by_cases he : e' = fiEagain
  · rw [if_pos he]
    unfold rdsDeferFin Ep.malloc
    cases halloc : env.alloc (ep.tick + 1) with
    | true => exact .inl rfl
    | false =>
      refine .inr ⟨.inr (fun hok => ?_), ep.tick + 2, rfl⟩
      rw [hok (ep.tick + 1)] at halloc
      cases halloc
  · rw [if_neg he]
    exact .inr ⟨.inl (fun hsoft => he (eq_fiEagain_of_sockRet hsoft hsend hret)),
      ep.tick + 1, rfl⟩

/-- A pending operation is allocated with the next id, or not at all. -/
theorem rdsPendingAlloc_cases (env : Env) (ep : Ep) (type : PendType) (context : ℕ)
    (flags : UInt64) :
    (env.alloc ep.tick = false ∧ rdsPendingAlloc env ep type context flags
        = ({ ep with tick := ep.tick + 1 }, none))
      ∨ rdsPendingAlloc env ep type context flags
        = ({ ep with
              tick := ep.tick + 1, opId := succId ep.opId, idsGiven := ep.idsGiven + 1 },
            some (Pending.blank (succId ep.opId) type context flags)) := by
  unfold rdsPendingAlloc Ep.malloc rdsNextId
  cases halloc : env.alloc ep.tick with
  | false => exact .inl ⟨rfl, rfl⟩
  | true => exact .inr rfl

/-- **A message is buffered, or dropped for want of memory**; one that is not eager
needs a second allocation, and a request that is dropped is answered. -/
theorem rdsEnqueueUnexp_cases (env : Env) (ep : Ep) (m : Unexp) (k : Bool) :
    (env.alloc ep.tick = false ∧ rdsEnqueueUnexp env ep m k
        = if m.hdr.op = rdsOpRts then
            rdsSendFin env { ep with tick := ep.tick + 1 } m.src m.hdr.id
          else { ep with tick := ep.tick + 1 })
      ∨ (env.alloc ep.tick = true ∧ m.hdr.op = rdsOpEager ∧ rdsEnqueueUnexp env ep m k
        = ({ ep with tick := ep.tick + 1 } : Ep).linkUnexp m k)
      ∨ (env.alloc ep.tick = true ∧ m.hdr.op ≠ rdsOpEager ∧ env.alloc (ep.tick + 1) = false
        ∧ rdsEnqueueUnexp env ep m k
          = rdsSendFin env { ep with tick := ep.tick + 2 } m.src m.hdr.id)
      ∨ (env.alloc ep.tick = true ∧ m.hdr.op ≠ rdsOpEager ∧ env.alloc (ep.tick + 1) = true
        ∧ rdsEnqueueUnexp env ep m k
          = ({ ep with tick := ep.tick + 2 } : Ep).linkUnexp m k) := by
  unfold rdsEnqueueUnexp Ep.malloc
  cases hrecord : env.alloc ep.tick with
  | false => exact .inl ⟨rfl, rfl⟩
  | true =>
    refine .inr ?_
    dsimp only
    by_cases heager : m.hdr.op = rdsOpEager
    · rw [if_pos heager]
      exact .inl ⟨rfl, heager, rfl⟩
    rw [if_neg heager]
    refine .inr ?_
    cases hcopy : env.alloc (ep.tick + 1) with
    | false => exact .inl ⟨rfl, heager, rfl, rfl⟩
    | true => exact .inr ⟨rfl, heager, rfl, rfl⟩

/-- **A read is issued, parked, or failed**, and the operation counts which. -/
theorem rdsIssueRead_cases (env : Env) (peer : SockAddr) (rts : UInt64) (ep : Ep)
    (p : Pending) (r : ReadReq) :
    rdsIssueRead env peer rts (ep, p) r
        = ({ ep with tick := ep.tick + 1, inflight := ep.inflight ++ [r.op peer p.id rts] },
          { p with segRemaining := p.segRemaining + 1, segTotal := p.segTotal + 1 })
      ∨ rdsIssueRead env peer rts (ep, p) r
        = ({ ep with
              tick := ep.tick + 2
              deferred := ep.deferred ++ [.read peer r.cookie r.remoteOff r.liov p.id rts] },
          { p with segDeferred := p.segDeferred + 1, segTotal := p.segTotal + 1 })
      ∨ ∃ t, ∃ e : ℕ+, rdsIssueRead env peer rts (ep, p) r
        = ({ ep with tick := t, trace := ep.trace ++ [.readFail p.id] }, p.fail e) := by
  unfold rdsIssueRead
  dsimp only
  rcases rdsPostRdma_cases env ep (r.op peer p.id rts)
    with ⟨-, h⟩ | ⟨e, e', -, -, h⟩ | ⟨-, -, h⟩ | ⟨-, hn, -⟩
  · rw [h]
    exact .inr (.inr ⟨ep.tick, fiEinval, rfl⟩)
  · rw [h]
    refine .inr ?_
    dsimp only
    split
    · unfold Ep.malloc
      cases halloc : env.alloc (ep.tick + 1) with
      | true => exact .inl rfl
      | false => exact .inr ⟨ep.tick + 2, fiEnomem, rfl⟩
    · exact .inr ⟨ep.tick + 1, e', rfl⟩
  · rw [h]
    exact .inl rfl
  · cases hn

/-- **Issuing reads keeps what each end of one keeps**: it is out, parked, or failed. -/
theorem rdsIssueReads_keeps {P : Ep → Pending → Prop} {env : Env} {peer : SockAddr} {rts : UInt64}
    (issued : ∀ ep p t op, P ep p → P { ep with tick := t, inflight := ep.inflight ++ [op] }
      { p with segRemaining := p.segRemaining + 1, segTotal := p.segTotal + 1 })
    (parked : ∀ ep p t d, P ep p → P { ep with tick := t, deferred := ep.deferred ++ [d] }
      { p with segDeferred := p.segDeferred + 1, segTotal := p.segTotal + 1 })
    (failed : ∀ ep p t (e : ℕ+), P ep p →
      P { ep with tick := t, trace := ep.trace ++ [.readFail p.id] } (p.fail e))
    (rs : List ReadReq) {s : Ep × Pending} (h : P s.1 s.2) :
    P (rs.foldl (rdsIssueRead env peer rts) s).1 (rs.foldl (rdsIssueRead env peer rts) s).2 := by
  induction rs generalizing s with
  | nil => exact h
  | cons r rs ih =>
    refine ih ?_
    obtain heq | heq | ⟨t, e, heq⟩ := rdsIssueRead_cases env peer rts s.1 s.2 r
    · rw [heq]
      exact issued _ _ _ _ h
    · rw [heq]
      exact parked _ _ _ _ h
    · rw [heq]
      exact failed _ _ _ _ h

/-- **A parked `FIN` is sent, stays parked, or is lost** to a hard error. -/
theorem rdsRetryFin_cases (env : Env) (ep : Ep) (peer : SockAddr) (id : UInt64) :
    rdsRetryDeferred env ep (.fin peer id) = ({ ep with
        tick := ep.tick + 1, wire := ep.wire ++ [finDgram ep.cfg.self peer id] }, false)
      ∨ rdsRetryDeferred env ep (.fin peer id) = ({ ep with tick := ep.tick + 1 }, true)
      ∨ (¬ env.NoHardError ∧ rdsRetryDeferred env ep (.fin peer id) = ({ ep with
        tick := ep.tick + 1, trace := ep.trace ++ [.finLost peer id] }, false)) := by
  unfold rdsRetryDeferred rdsSendFinRaw
  dsimp only
  rcases ep.sendDgram_cases env peer (finHdr id).encode with ⟨-, h⟩ | ⟨e, e', hsend, hret, h⟩
  · rw [h]
    exact .inl rfl
  rw [h]
  refine .inr ?_
  dsimp only
  by_cases he : e' = fiEagain
  · rw [if_pos he]
    exact .inl rfl
  · rw [if_neg he]
    exact .inr ⟨fun hsoft => he (eq_fiEagain_of_sockRet hsoft hsend hret), rfl⟩

/-- What is recorded when `seg_deferred` is decremented. -/
def Pending.underflows (p : Pending) (id : UInt64) : List Event :=
  if p.segDeferred = 0 then [.underflow id] else []

/-- **A parked read has no owner, stays parked, is issued, or fails**; in the last
two cases its owner counts it, and is finalized if it was the last. -/
theorem rdsRetryRead_cases (env : Env) (ep : Ep) (peer : SockAddr) (r : ReadReq)
    (id rts : UInt64) :
    (rdsPendingFind ep id = none ∧ rdsRetryRead env ep peer r id rts = (ep.log (.orphan id), false))
      ∨ ∃ p, rdsPendingFind ep id = some p ∧
        ((∃ t, rdsRetryRead env ep peer r id rts = ({ ep with tick := t }, true))
          ∨ ∃ e q, rdsRetryRead env ep peer r id rts
              = (if q.segRemaining = 0 ∧ q.segDeferred = 0 then
                  (rdsRndzvRxFinalize env e q).unlinkPending q.id else e.storePending q, false)
            ∧ ((∃ t, e = { ep with
                    tick := t
                    inflight := ep.inflight ++ [r.op peer id rts]
                    trace := ep.trace ++ p.underflows id }
                  ∧ q = { p with
                    segDeferred := p.segDeferred - 1, segRemaining := p.segRemaining + 1 })
              ∨ ∃ t, ∃ err : ℕ+, e = { ep with
                    tick := t
                    trace := ep.trace ++ p.underflows id ++ [.readFail p.id] }
                  ∧ q = ({ p with segDeferred := p.segDeferred - 1 } : Pending).fail err)) := by
  have hunder : ∀ (e : Ep) (p : Pending), (if p.segDeferred = 0 then e.log (.underflow id) else e)
      = { e with trace := e.trace ++ p.underflows id } := by
    intro e p
    unfold Pending.underflows
    split
    · rfl
    · rw [List.append_nil]
  unfold rdsRetryRead
  cases hfind : rdsPendingFind ep id with
  | none => exact .inl ⟨rfl, rfl⟩
  | some p =>
    refine .inr ⟨p, rfl, ?_⟩
    dsimp only
    rcases rdsPostRdma_cases env ep (r.op peer id rts)
      with ⟨-, h⟩ | ⟨e, e', -, -, h⟩ | ⟨-, -, h⟩ | ⟨-, hn, -⟩
    · rw [h, hunder]
      refine .inr ⟨_, _, ?_, .inr ⟨ep.tick, fiEinval, rfl, rfl⟩⟩
      dsimp only
      rw [if_neg (by simp)]
      exact (apply_ite (·, false) _ _ _).symm
    · rw [h, hunder]
      dsimp only
      by_cases he : Ret.err e' = .err fiEagain
      · rw [if_pos he]
        exact .inl ⟨_, rfl⟩
      · rw [if_neg he]
        exact .inr ⟨_, _, (apply_ite (·, false) _ _ _).symm, .inr ⟨ep.tick + 1, e', rfl, rfl⟩⟩
    · rw [h, hunder]
      dsimp only
      rw [if_neg (by simp)]
      exact .inr ⟨_, _, (apply_ite (·, false) _ _ _).symm, .inl ⟨ep.tick + 1, rfl, rfl⟩⟩
    · cases hn

/-- **A parked operation is retried**: a `FIN` is sent or lost, a read has no owner or is
counted by it, and either may stay parked. -/
@[elab_as_elim]
theorem rdsRetryDeferred_elim {motive : Ep × Bool → Prop} {env : Env} {ep : Ep} {d : Deferred}
    (sent : ∀ peer id, motive ({ ep with
      tick := ep.tick + 1, wire := ep.wire ++ [finDgram ep.cfg.self peer id] }, false))
    (stays : ∀ t, motive ({ ep with tick := t }, true))
    (lost : ∀ peer id, motive ({ ep with
      tick := ep.tick + 1, trace := ep.trace ++ [.finLost peer id] }, false))
    (orphan : ∀ id, motive (ep.log (.orphan id), false))
    (counted : ∀ p e q, rdsPendingFind ep p.id = some p →
      (∃ peer cookie off liov rts, d = .read peer cookie off liov p.id rts) →
      ((∃ t op, e = { ep with
            tick := t, inflight := ep.inflight ++ [op], trace := ep.trace ++ p.underflows p.id }
          ∧ q = { p with segDeferred := p.segDeferred - 1, segRemaining := p.segRemaining + 1 })
        ∨ ∃ t, ∃ err : ℕ+, e = { ep with
            tick := t, trace := ep.trace ++ p.underflows p.id ++ [.readFail p.id] }
          ∧ q = ({ p with segDeferred := p.segDeferred - 1 } : Pending).fail err) →
      motive (if q.segRemaining = 0 ∧ q.segDeferred = 0 then
        (rdsRndzvRxFinalize env e q).unlinkPending q.id else e.storePending q, false)) :
    motive (rdsRetryDeferred env ep d) := by
  cases d with
  | fin peer id =>
    obtain h | h | ⟨-, h⟩ := rdsRetryFin_cases env ep peer id
    · rw [h]
      exact sent peer id
    · rw [h]
      exact stays _
    · rw [h]
      exact lost peer id
  | read peer cookie off liov id rts =>
    rw [rdsRetryDeferred]
    obtain ⟨-, h⟩ | ⟨p, hfind, ⟨t, h⟩ | ⟨e, q, h, hcases⟩⟩ :=
      rdsRetryRead_cases env ep peer ⟨cookie, off, liov⟩ id rts
    · rw [h]
      exact orphan id
    · rw [h]
      exact stays t
    obtain rfl : p.id = id := by simpa using List.find?_some hfind
    rw [h]
    refine counted p e q hfind ⟨peer, cookie, off, liov, rts, rfl⟩ ?_
    obtain ⟨t, he, hq⟩ | hfailed := hcases
    · exact .inl ⟨t, _, he, hq⟩
    · exact .inr hfailed

/-- **The walk of the deferred queue keeps what a visit keeps**, which takes the first operation
off the queue and retries it. -/
theorem rdsProgressDeferredLoop_keeps {P : Ep → Prop} {env : Env}
    (visit : ∀ ep d todo, ep.deferred = d :: todo → P ep →
      P (rdsRetryDeferred env { ep with deferred := todo } d).1)
    (fuel : ℕ) (kept : List Deferred) {ep : Ep} (h : P ep) :
    P (rdsProgressDeferredLoop env fuel kept ep).1 := by
  induction fuel generalizing kept ep with
  | zero => exact h
  | succ fuel ih =>
    rw [rdsProgressDeferredLoop]
    cases hqueue : ep.deferred with
    | nil => exact h
    | cons d todo =>
      have hvisit := visit ep d todo hqueue h
      dsimp only
      split
      · exact hvisit
      · exact ih _ hvisit

/-- So does the whole of `rds_progress_deferred`, if the queue itself does not matter. -/
theorem rdsProgressDeferred_keeps {P : Ep → Prop} {env : Env}
    (queue : ∀ ep ds, P ep → P { ep with deferred := ds })
    (visit : ∀ ep d, P ep → P (rdsRetryDeferred env ep d).1) {ep : Ep} (h : P ep) :
    P (rdsProgressDeferred env ep).1 :=
  queue _ _ (rdsProgressDeferredLoop_keeps
    (fun e d todo _ he => visit _ d (queue e todo he)) (2 * ep.deferred.length) [] h)

/-! ## What arrives -/

/-- The endpoint with an operation opened for a request. -/
def Ep.rxOpened (ep : Ep) (rx : RxEntry) (hdr : Hdr) : Ep :=
  Ep.log { ep with tick := ep.tick + 1, opId := succId ep.opId, idsGiven := ep.idsGiven + 1 }
    (.rxOpen (succId ep.opId) (rx.totalLen < hdr.size.toNat))

/-- The operation that is opened. -/
def Ep.rxOperation (ep : Ep) (rx : RxEntry) (hdr : Hdr) (peer : SockAddr) (src : UInt64) :
    Pending :=
  (Pending.blank (succId ep.opId) .rndzvRx rx.context (rdsRxFlags hdr)).ofRequest rx hdr peer src
    ep.cfg.rxOpFlags

/-- **A request that meets a receive** is answered at once for want of memory, or its reads are
started; it is finalized if there is none to wait for, and else pending. -/
@[elab_as_elim]
theorem rdsStartRndzvRead_elim {motive : Ep → Prop} {env : Env} {ep : Ep} {rx : RxEntry} {hdr : Hdr}
    {segs : List Seg} {peer : SockAddr} {src : UInt64}
    (refused : env.alloc ep.tick = false →
      motive (rdsCqWriteRx (rdsSendFin env { ep with tick := ep.tick + 1 } peer hdr.id) rx.context
        (rdsRxFlags hdr) 0 hdr.data hdr.tag src fiEnomem))
    (started : env.alloc ep.tick = true → ∀ e q,
      (rndzvReads rx.iov (min hdr.size.toNat rx.totalLen) 0 segs).foldl
          (rdsIssueRead env peer hdr.id) (ep.rxOpened rx hdr, ep.rxOperation rx hdr peer src)
        = (e, q) →
      motive (if q.segRemaining = 0 ∧ q.segDeferred = 0 then rdsRndzvRxFinalize env e q
        else e.linkPending q)) :
    motive (rdsStartRndzvRead env ep rx hdr segs peer src) := by
  unfold rdsStartRndzvRead rdsPendingAlloc Ep.malloc
  cases halloc : env.alloc ep.tick with
  | false => exact refused halloc
  | true => exact started halloc _ _ rfl

/-- **A message** is given to the first receive that takes it, or buffered; without memory it is
dropped, and what is not eager is answered. -/
@[elab_as_elim]
theorem rdsHandleMessage_elim {motive : Ep → Prop} {env : Env} {ep : Ep} {m : Unexp}
    (found : ∀ rx, (ep.posted m.hdr.tagged).find?
        (fun rx => rdsMatches m.hdr.tagged rx m.addr m.hdr.tag) = some rx →
      motive (rdsDeliver env { ep with
        arrivals := ep.arrivals + 1
        posted := Function.update ep.posted m.hdr.tagged ((ep.posted m.hdr.tagged).eraseP
          (fun rx => rdsMatches m.hdr.tagged rx m.addr m.hdr.tag)) } rx m))
    (buffered : (ep.posted m.hdr.tagged).find?
        (fun rx => rdsMatches m.hdr.tagged rx m.addr m.hdr.tag) = none → ∀ t,
      motive (Ep.linkUnexp { ep with arrivals := ep.arrivals + 1, tick := t } m m.hdr.tagged))
    (answered : ¬ env.AllocOk → m.hdr.op ≠ rdsOpEager → ∀ t,
      motive (rdsSendFin env { ep with arrivals := ep.arrivals + 1, tick := t } m.src m.hdr.id))
    (dropped : ¬ env.AllocOk → ∀ t, motive { ep with arrivals := ep.arrivals + 1, tick := t }) :
    motive (rdsHandleMessage env ep m) := by
  cases hfind : (ep.posted m.hdr.tagged).find?
      (fun rx => rdsMatches m.hdr.tagged rx m.addr m.hdr.tag) with
  | some rx =>
    rw [rdsHandleMessage_found env hfind]
    exact found rx hfind
  | none =>
    have hfailed {t : ℕ} (hnone : env.alloc t = false) : ¬ env.AllocOk := by
      intro hok
      rw [hok t] at hnone
      cases hnone
    rw [rdsHandleMessage_none env hfind]
    obtain ⟨hrecord, h⟩ | ⟨-, -, h⟩ | ⟨-, heager, hcopy, h⟩ | ⟨-, -, -, h⟩ :=
      rdsEnqueueUnexp_cases env { ep with arrivals := ep.arrivals + 1 } m m.hdr.tagged
    · rw [h]
      split
      · rename_i hrts
        exact answered (hfailed hrecord) (by rw [hrts]; decide) _
      · exact dropped (hfailed hrecord) _
    · rw [h]
      exact buffered hfind _
    · rw [h]
      exact answered (hfailed hcopy) heager _
    · rw [h]
      exact buffered hfind _

/-- **What arrives** is dropped, completes a send, is for the ring, or is given to the matching
engine: the ways through `rds_handle_inbound`, for whatever is to be shown of the endpoint. -/
@[elab_as_elim]
theorem rdsHandleInbound_elim {motive : Ep → Prop} {env : Env} {ep : Ep} {hdr : Hdr}
    {payload : List UInt8} {src : SockAddr} {srcFi : UInt64} (dropped : motive ep)
    (fin : ∀ p, rdsPendingFind ep p.id = some p → p.type = .rndzvTx →
      motive (rdsPendingComplete ep p))
    (ctrl : hdr.magic = rdsHdrMagic → hdr.op = rdsOpRingReq ∨ hdr.op = rdsOpRingAck →
      motive (rdsRingHandleCtrl env ep hdr payload srcFi))
    (message : hdr.op ≠ rdsOpFin → ¬ (hdr.op = rdsOpRingReq ∨ hdr.op = rdsOpRingAck) →
      motive (rdsHandleMessage env ep (Unexp.ofInbound hdr payload src srcFi ep.arrivals))) :
    motive (rdsHandleInbound env ep hdr payload src srcFi) := by
  unfold rdsHandleInbound
  split
  · exact dropped
  rename_i hmagic
  split
  · cases hfind : rdsPendingFind ep hdr.id with
    | none => exact dropped
    | some p =>
      dsimp only
      have hid : p.id = hdr.id := by simpa using List.find?_some hfind
      split
      · rename_i htype
        exact fin p (by rw [hid, hfind]) htype
      · exact dropped
  rename_i hfin
  split
  · rename_i hring
    exact ctrl (not_not.mp hmagic) hring
  rename_i hring
  split
  · exact dropped
  · exact message hfin hring

/-- A message that is eager, or a request with all its segments, is given to the matching
engine. -/
theorem rdsHandleInbound_of_message {hdr : Hdr} {payload : List UInt8}
    (hmagic : hdr.magic = rdsHdrMagic) (hop : hdr.op = rdsOpEager
      ∨ hdr.op = rdsOpRts ∧ hdr.segCnt.toNat * rdsSegSize ≤ payload.length) (env : Env) (ep : Ep)
    (src : SockAddr) (srcFi : UInt64) :
    rdsHandleInbound env ep hdr payload src srcFi
      = rdsHandleMessage env ep (Unexp.ofInbound hdr payload src srcFi ep.arrivals) := by
  have hne : hdr.op ≠ rdsOpFin ∧ ¬ (hdr.op = rdsOpRingReq ∨ hdr.op = rdsOpRingAck)
      ∧ ¬ (hdr.op = rdsOpRts ∧ payload.length < hdr.segCnt.toNat * rdsSegSize) := by
    obtain hop | ⟨hop, hlen⟩ := hop
    · rw [hop]
      exact ⟨by decide, by decide, fun h => absurd h.1 (by decide)⟩
    · rw [hop]
      exact ⟨by decide, by decide, fun h => absurd h.2 (not_lt.mpr hlen)⟩
  unfold rdsHandleInbound
  rw [if_neg (not_not_intro hmagic), if_neg hne.1, if_neg hne.2.1, if_neg hne.2.2]

@[elab_as_elim]
theorem rdsRecvDgram_elim {motive : Ep → Prop} {env : Env} {ep : Ep} {src : SockAddr}
    {bytes : List UInt8} (short : motive ep)
    (inbound : motive (rdsHandleInbound env ep (Hdr.decode bytes) (bytes.drop rdsHdrSize) src
      (ofiIpAvGetFiAddr ep.cfg src))) :
    motive (rdsRecvDgram env ep src bytes) := by
  unfold rdsRecvDgram
  split
  · exact short
  · exact inbound

/-- An operation after a status was reported for it. -/
def Pending.heed (p : Pending) (status : ℤ) : Pending :=
  if status ≠ 0 then p.fail status.natAbs else p

theorem Pending.heed_eq (p : Pending) (status : ℤ) :
    p.heed status = { p with error := (p.heed status).error } := by
  unfold heed fail
  split
  · split
    · rfl
    · rfl
  · rfl

theorem Pending.heed_error (p : Pending) (status : ℤ) :
    (p.heed status).error ≠ 0 ↔ p.error ≠ 0 ∨ status ≠ 0 := by
  unfold heed fail
  by_cases hstatus : status = 0
  · simp [hstatus]
  · rw [if_pos hstatus]
    split
    · rename_i hzero
      simp [hzero, hstatus]
    · rename_i hne
      simp [hne]

/-- What a notification leaves in the history: the answer to a read. -/
def Pending.acks (p : Pending) (status : ℤ) : List Event :=
  if p.type = .rndzvRx then [.readAck p.id (status == 0)] else []

/-- **A notification** is recorded and counted for its operation; the last one completes a
one-sided transfer, and finalizes a receive with nothing parked. -/
theorem rdsHandleRdmaNotify_found (env : Env) {ep : Ep} {token : UInt64} {p : Pending}
    (hfind : rdsPendingFind ep token = some p) (status : ℤ) :
    let e : Ep := { ep with trace := ep.trace ++ p.acks status }
    let q (n : UInt32) : Pending := { p with error := (p.heed status).error, segRemaining := n }
    rdsHandleRdmaNotify env ep token status
      = if p.segRemaining = 0 then e.storePending (q p.segRemaining)
        else if p.segRemaining - 1 ≠ 0 then e.storePending (q (p.segRemaining - 1))
        else match p.type with
          | .rma => rdsPendingComplete e (q (p.segRemaining - 1))
          | .rndzvRx =>
            if p.segDeferred = 0 then
              (rdsRndzvRxFinalize env e (q (p.segRemaining - 1))).unlinkPending p.id
            else e.storePending (q (p.segRemaining - 1))
          | .rndzvTx => e.storePending (q (p.segRemaining - 1)) := by
  have hlog : (if p.type = .rndzvRx then ep.log (.readAck p.id (status == 0)) else ep)
      = { ep with trace := ep.trace ++ p.acks status } := by
    unfold Pending.acks
    split
    · rfl
    · rw [List.append_nil]
  have hheed : (if status ≠ 0 then p.fail status.natAbs else p)
      = { p with error := (p.heed status).error } := p.heed_eq status
  unfold rdsHandleRdmaNotify
  rw [hfind]
  dsimp only
  rewrite [hlog, hheed]
  rfl

@[elab_as_elim]
theorem rdsHandleRdmaNotify_elim {motive : Ep → Prop} {env : Env} {ep : Ep} {token : UInt64}
    {status : ℤ} (stray : motive ep)
    (stored : ∀ p, ∀ n : UInt32, rdsPendingFind ep p.id = some p →
      (p.type = .rma → p.segRemaining ≠ 0 → n ≠ 0) →
      motive (Ep.storePending { ep with trace := ep.trace ++ p.acks status }
        { p with error := (p.heed status).error, segRemaining := n }))
    (completed : ∀ p, rdsPendingFind ep p.id = some p → p.type = .rma →
      motive (rdsPendingComplete { ep with trace := ep.trace ++ p.acks status }
        { p with error := (p.heed status).error, segRemaining := p.segRemaining - 1 }))
    (finalized : ∀ p, rdsPendingFind ep p.id = some p → p.type = .rndzvRx →
      motive ((rdsRndzvRxFinalize env { ep with trace := ep.trace ++ p.acks status }
        { p with error := (p.heed status).error, segRemaining := p.segRemaining - 1 }).unlinkPending
          p.id)) :
    motive (rdsHandleRdmaNotify env ep token status) := by
  cases hfind : rdsPendingFind ep token with
  | none =>
    unfold rdsHandleRdmaNotify
    rw [hfind]
    exact stray
  | some p =>
    have hid : rdsPendingFind ep p.id = some p := by
      rw [show p.id = token by simpa using List.find?_some hfind, hfind]
    rw [rdsHandleRdmaNotify_found env hfind]
    split
    · rename_i hzero
      exact stored p _ hid (fun _ hne => absurd hzero hne)
    split
    · rename_i hmore
      exact stored p _ hid (fun _ _ => hmore)
    have hrest (hne : p.type ≠ .rma) := stored p (p.segRemaining - 1) hid (fun h => absurd h hne)
    split
    · rename_i htype
      exact completed p hid htype
    · rename_i htype
      split
      · exact finalized p hid htype
      · exact hrest (by rw [htype]; decide)
    · rename_i htype
      exact hrest (by rw [htype]; decide)

/-- A slot is delivered as if it had come by the socket, if it holds a header. -/
@[elab_as_elim]
theorem rdsRingDeliver_elim {motive : Ep → Prop} {env : Env} {ep : Ep} {sa : SockAddr}
    {addr : UInt64} {slot : RingSlot} (short : motive ep)
    (inbound : ∀ hdr payload, motive (rdsHandleInbound env ep hdr payload sa addr)) :
    motive (rdsRingDeliver env ep sa addr slot) := by
  unfold rdsRingDeliver
  dsimp only
  split
  · exact inbound _ _
  split
  · exact short
  · exact inbound _ _

/-- **A round of polling** finds no slot, or delivers one; then the record, if there still is
one, passes the slot, and perhaps credit is returned. -/
theorem rdsRingPollSlot_cases (env : Env) (ep : Ep) (addr : UInt64) :
    (rdsRingPollSlot env ep addr = none
      ∧ ∀ p, rdsPeerFind ep addr = some p → p.nextSlot ep.cfg.geom.slots = none)
    ∨ ∃ p slot e, rdsPeerFind ep addr = some p ∧ p.nextSlot ep.cfg.geom.slots = some slot
      ∧ rdsRingPollSlot env ep addr = some e ∧
      let d := rdsRingDeliver env (ep.setPeer (p.absorbAck slot.ack)) p.sa p.addr slot
      e = d ∨ ∃ q : Peer, rdsPeerFind d addr = some q ∧
        let r : Peer := { q with rxHead := q.rxHead + 1 }
        e = d.setPeer r ∨ e = rdsRingReturnCredit env (d.setPeer r) r := by
  unfold rdsRingPollSlot
  dsimp only
  cases hfind : rdsPeerFind ep addr with
  | none => exact .inl ⟨rfl, fun _ hp => by cases hp⟩
  | some p =>
    dsimp only
    cases hslot : p.nextSlot ep.cfg.geom.slots with
    | none => exact .inl ⟨rfl, fun _ hq => by cases hq; exact hslot⟩
    | some slot =>
      dsimp only
      generalize hd : rdsRingDeliver env (ep.setPeer (p.absorbAck slot.ack)) p.sa p.addr slot = d
      cases hq : rdsPeerFind d addr with
      | none => exact .inr ⟨p, slot, d, rfl, hslot, rfl, .inl hd.symm⟩
      | some q =>
        refine .inr ⟨p, slot, _, rfl, hslot, rfl, .inr ⟨q, by rw [hd, hq], ?_⟩⟩
        rw [hd]
        split
        · exact .inr rfl
        · exact .inl rfl

@[elab_as_elim]
theorem rdsRingFlushCredit_elim {motive : Ep → Prop} {env : Env} {ep : Ep} {addr : UInt64}
    (idle : motive ep)
    (returned : ∀ p, rdsPeerFind ep addr = some p → motive (rdsRingReturnCredit env ep p)) :
    motive (rdsRingFlushCredit env ep addr) := by
  unfold rdsRingFlushCredit
  cases hp : rdsPeerFind ep addr with
  | none => exact idle
  | some p =>
    dsimp only
    split
    · exact returned p hp
    · exact idle

/-! ## Calls -/

/-- The receive a call posts. -/
def Ep.postedEntry (ep : Ep) (iov : List Iovec) (addr tag ignore : UInt64) (context : ℕ)
    (flags : UInt64) (tagged : Bool) : RxEntry :=
  ⟨context, iov, ofiTotalIovLen iov, tag, ignore, addr,
    flags ||| (if tagged then fiTagged else 0), ep.postings⟩

/-- **A receive** is refused, given the first unexpected message that it takes, or linked, if
there is memory. -/
@[elab_as_elim]
theorem rdsPostRecv_elim {motive : Ep → Prop} {env : Env} {ep : Ep} {iov : List Iovec}
    {addr tag ignore : UInt64} {context : ℕ} {flags : UInt64} {tagged : Bool}
    (refused : rdsIovLimit < iov.length → motive ep)
    (found : ∀ rx, rx = ep.postedEntry iov addr tag ignore context flags tagged → ∀ ux,
      (ep.unexp tagged).find? (fun ux => rdsMatches tagged rx ux.addr ux.hdr.tag) = some ux →
      motive (rdsDeliver env { ep with
        postings := ep.postings + 1
        unexp := Function.update ep.unexp tagged ((ep.unexp tagged).eraseP
          (fun ux => rdsMatches tagged rx ux.addr ux.hdr.tag)) } rx ux))
    (unlinked : ¬ env.AllocOk → ∀ rx, rx = ep.postedEntry iov addr tag ignore context flags tagged →
      (ep.unexp tagged).find? (fun ux => rdsMatches tagged rx ux.addr ux.hdr.tag) = none →
      motive { ep with postings := ep.postings + 1, tick := ep.tick + 1 })
    (linked : ∀ rx, rx = ep.postedEntry iov addr tag ignore context flags tagged →
      (ep.unexp tagged).find? (fun ux => rdsMatches tagged rx ux.addr ux.hdr.tag) = none →
      motive { ep with
        postings := ep.postings + 1
        tick := ep.tick + 1
        posted := Function.update ep.posted tagged (ep.posted tagged ++ [rx]) }) :
    motive (rdsPostRecv env ep iov addr tag ignore context flags tagged).1 := by
  unfold rdsPostRecv rdsMatchUnexp Ep.malloc
  split
  · rename_i hcount
    exact refused hcount
  dsimp only
  generalize hrx : (⟨context, iov, ofiTotalIovLen iov, tag, ignore, addr,
    flags ||| (if tagged then fiTagged else 0), ep.postings⟩ : RxEntry) = rx
  cases hfind : (ep.unexp tagged).find? (fun ux => rdsMatches tagged rx ux.addr ux.hdr.tag) with
  | some ux => exact found rx hrx.symm ux hfind
  | none =>
    dsimp only
    cases halloc : env.alloc ep.tick with
    | false =>
      refine unlinked (fun hok => ?_) rx hrx.symm hfind
      rw [hok ep.tick] at halloc
      cases halloc
    | true => exact linked rx hrx.symm hfind

/-- A receive that is withdrawn is reported, if there is a queue. -/
@[elab_as_elim]
theorem rdsEpCancel_elim {motive : Ep → Prop} {ep : Ep} {context : ℕ} (absent : motive ep)
    (withdrawn : ∀ k rx, (ep.posted k).find? (·.context == context) = some rx →
      motive { ep with
        posted := Function.update ep.posted k ((ep.posted k).eraseP (·.context == context))
        rxCq := ep.rxCq ++ if ep.cfg.hasRxCq then [cancelEntry rx context] else [] }) :
    motive (rdsEpCancel ep context).1 := by
  have hone {k : Bool} {rx : RxEntry}
      (hfind : (ep.posted k).find? (·.context == context) = some rx) :
      motive (if ep.cfg.hasRxCq then { ep with
          posted := Function.update ep.posted k ((ep.posted k).eraseP (·.context == context))
          rxCq := ep.rxCq ++ [cancelEntry rx context] }
        else { ep with
          posted := Function.update ep.posted k
            ((ep.posted k).eraseP (·.context == context)) }) := by
    have h := withdrawn k rx hfind
    split
    · rename_i hcq
      rwa [if_pos hcq] at h
    · rename_i hcq
      rwa [if_neg hcq, List.append_nil] at h
  unfold rdsEpCancel
  dsimp only
  split
  · rename_i rx hfind
    exact hone hfind
  split
  · rename_i rx hfind
    exact hone hfind
  · exact absent

/-- The endpoint after some operations of a transfer were accepted, under a new id. -/
def Ep.issued (ep : Ep) (t : ℕ) (ops : List RdmaOp) : Ep :=
  { ep with
    tick := t
    opId := succId ep.opId
    idsGiven := ep.idsGiven + 1
    inflight := ep.inflight ++ ops }

/-- **What a call for a one-sided transfer does.** It is refused; or some operations are issued
under a new id, and if there is any, an operation that waits for it is pending. -/
inductive Ep.StartsRma (ep : Ep) : Ep → Prop
  | refused (t : ℕ) : ep.StartsRma { ep with tick := t }
  | issued (t : ℕ) (ops : List RdmaOp) : ep.StartsRma (ep.issued t ops)
  | pending (t : ℕ) (ops : List RdmaOp) (p : Pending) (htype : p.type = .rma) (hmrs : p.mrs = [])
      (hflags : ∃ isWrite : Bool, p.flags = fiRma ||| (if isWrite then fiWrite else fiRead))
      (hparts : p.segRemaining ≠ 0) : ep.StartsRma ((ep.issued t ops).linkPending p)

/-- The loop of a transfer issues operations, and its operation counts them. -/
theorem rdsRmaLoop_spec (env : Env) (dest : SockAddr) (key remoteOff : UInt64) (isWrite : Bool)
    (iov : List Iovec) (total fuel off : ℕ) (ep : Ep) (p : Pending) :
    ∃ t ops n, (rdsRmaLoop env dest key remoteOff isWrite iov total fuel off ep p).1
        = { ep with tick := t, inflight := ep.inflight ++ ops }
      ∧ (rdsRmaLoop env dest key remoteOff isWrite iov total fuel off ep p).2.1
        = { p with segRemaining := n } := by
  induction fuel generalizing off ep p with
  | zero => exact ⟨ep.tick, [], _, by rw [List.append_nil]; rfl, rfl⟩
  | succ fuel ih =>
    have hnone (t : ℕ) : ({ ep with tick := t } : Ep)
        = { ep with tick := t, inflight := ep.inflight ++ [] } := by rw [List.append_nil]
    rw [rdsRmaLoop]
    split
    swap
    · exact ⟨ep.tick, [], _, hnone _, rfl⟩
    dsimp only
    split
    · exact ⟨ep.tick, [], _, hnone _, rfl⟩
    obtain ⟨-, h⟩ | ⟨e, e', -, -, h⟩ | ⟨-, -, h⟩ | ⟨-, hn, -⟩ := rdsPostRdma_cases env ep
      (rmaOp dest key (remoteOff + UInt64.ofNat off)
        (.iov (rdsIovSlice iov off (min (total - off) rdsKernelSegMax)).1) isWrite p.id)
    · rw [h]
      exact ⟨ep.tick, [], _, hnone _, rfl⟩
    · rw [h]
      exact ⟨ep.tick + 1, [], _, hnone _, rfl⟩
    · rw [h]
      obtain ⟨t, ops, n, hep, hp⟩ := ih _ _ _
      exact ⟨t, _ :: ops, n, by rw [hep, List.append_assoc]; rfl, hp⟩
    · cases hn

theorem rdsRmaCommon_starts (env : Env) (ep : Ep) (iov : List Iovec)
    (remoteFi remoteOff key : UInt64) (isWrite : Bool) (context : ℕ) (flags : UInt64) :
    ep.StartsRma (rdsRmaCommon env ep iov remoteFi remoteOff key isWrite context flags).1 := by
  unfold rdsRmaCommon
  dsimp only
  split
  · exact .refused ep.tick
  split
  · exact .refused ep.tick
  rename_i dest _
  obtain ⟨-, h⟩ | h := rdsPendingAlloc_cases env ep .rma context
    (fiRma ||| (if isWrite then fiWrite else fiRead))
  · rw [h]
    exact .refused (ep.tick + 1)
  rw [h]
  dsimp only
  obtain ⟨t, ops, n, hep, hp⟩ := rdsRmaLoop_spec env dest key remoteOff isWrite iov
    (ofiTotalIovLen iov) (ofiTotalIovLen iov) 0
    { ep with tick := ep.tick + 1, opId := succId ep.opId, idsGiven := ep.idsGiven + 1 }
    { Pending.blank (succId ep.opId) .rma context
        (fiRma ||| (if isWrite then fiWrite else fiRead)) with
      len := ofiTotalIovLen iov
      addr := remoteFi
      noComp := !hasFlag (ep.cfg.txOpFlags ||| flags) fiCompletion }
  generalize rdsRmaLoop env dest key remoteOff isWrite iov _ _ 0 _ _ = s at hep hp
  obtain ⟨e, q, ret⟩ := s
  dsimp only at hep hp ⊢
  rw [hep]
  split
  · exact .issued t ops
  · rename_i hparts
    cases ret with
    | ok =>
      exact .pending t ops q (by rw [hp]; rfl) (by rw [hp]; rfl) ⟨isWrite, by rw [hp]; rfl⟩ hparts
    | err err =>
      exact .pending t ops { q with error := err } (by rw [hp]; rfl) (by rw [hp]; rfl)
        ⟨isWrite, by rw [hp]; rfl⟩ hparts

theorem rdsInjectWrite_starts (env : Env) (ep : Ep) (buf len : ℕ) (destAddr addr key : UInt64) :
    ep.StartsRma (rdsInjectWrite env ep buf len destAddr addr key).1 := by
  unfold rdsInjectWrite Ep.malloc
  split
  · exact .refused ep.tick
  cases env.alloc ep.tick with
  | false => exact .refused (ep.tick + 1)
  | true =>
    dsimp only
    split
    · exact .refused (ep.tick + 1)
    rename_i dest _
    obtain ⟨-, h⟩ | h := rdsPendingAlloc_cases env { ep with tick := ep.tick + 1 } .rma 0
      (fiRma ||| fiWrite)
    · rw [h]
      exact .refused _
    rw [h]
    dsimp only
    have hnone (t : ℕ) : ep.StartsRma { ep with
        tick := t, opId := succId ep.opId, idsGiven := ep.idsGiven + 1 } := by
      have hissued : ep.StartsRma _ := .issued t []
      rwa [Ep.issued, List.append_nil] at hissued
    obtain ⟨-, h⟩ | ⟨e, e', -, -, h⟩ | ⟨-, -, h⟩ | ⟨-, hn, -⟩ := rdsPostRdma_cases env
      { ep with tick := ep.tick + 1 + 1, opId := succId ep.opId, idsGiven := ep.idsGiven + 1 }
      (rmaOp dest key addr (.bounce (readMem env.mem buf len)) true
        (Pending.blank (succId ep.opId) .rma 0 (fiRma ||| fiWrite)).id)
    · rw [h]
      exact hnone _
    · rw [h]
      exact hnone _
    · rw [h]
      exact .pending _ _ { Pending.blank (succId ep.opId) .rma 0 (fiRma ||| fiWrite) with
        noComp := true, segRemaining := 1 } rfl rfl ⟨true, rfl⟩ (show (1 : UInt32) ≠ 0 by decide)
    · cases hn
