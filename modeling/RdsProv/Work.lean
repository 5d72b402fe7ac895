import RdsProv.Reports
import RdsProv.DeferredReturn

/-!
# The work an endpoint still has

A message that comes in may start reads; a read may be parked, issued, notified; the last
one ends a receive, whose `FIN` may be parked in turn. None of this goes round in circles:
`Ep.work` counts what is still to come, and no step of the receive side adds more to it
than it takes away. A datagram is used up when it is taken in, an operation in flight when
it is notified, a parked one when it goes out, and each is worth more than all it can
cause. Only a retry that finds no room leaves the work as it was, and with it the queue.

Handshakes of rings are outside of this, so the rings are off where it matters.
-/

/-- What an inbound message can still cause: a `FIN` ends a send, a request may be
parked or start a read per segment under a new operation. -/
def Hdr.work (hdr : Hdr) : ℕ :=
  if hdr.op = rdsOpFin ∨ hdr.op = rdsOpRingReq ∨ hdr.op = rdsOpRingAck then 1
  else 2 * hdr.segCnt.toNat + 4

theorem Hdr.work_pos (hdr : Hdr) : 0 < hdr.work := by
  unfold Hdr.work
  split
  · exact Nat.one_pos
  · exact Nat.succ_pos _

/-- What a datagram can still cause. -/
def Dgram.work (d : Dgram) : ℕ := d.hdr.work

theorem work_finDgram (src dst : SockAddr) (id : UInt64) : (finDgram src dst id).work = 1 := by
  unfold Dgram.work Dgram.hdr finDgram
  rw [← List.append_nil (finHdr id).encode, Hdr.decode_encode]
  rfl

/-- **The work an endpoint still has.** An operation in flight is worth its notification,
a parked one its retry on top of that, a pending one the `FIN` it may have to park. -/
def Ep.work (ep : Ep) : ℕ :=
  3 * ep.pending.length + 2 * ep.deferred.length + ep.inflight.length
    + (ep.wire.map Dgram.work).sum

theorem Ep.work_sent (ep : Ep) (d : Dgram) :
    ({ ep with wire := ep.wire ++ [d] } : Ep).work = ep.work + d.work := by
  unfold Ep.work
  dsimp only
  rw [List.map_append, List.sum_append, List.map_singleton, List.sum_singleton]
  omega

theorem Ep.work_parked (ep : Ep) (d : Deferred) :
    ({ ep with deferred := ep.deferred ++ [d] } : Ep).work = ep.work + 2 := by
  unfold Ep.work
  dsimp only
  rw [List.length_append, List.length_singleton]
  omega

theorem Ep.work_issued (ep : Ep) (op : RdmaOp) :
    ({ ep with inflight := ep.inflight ++ [op] } : Ep).work = ep.work + 1 := by
  unfold Ep.work
  dsimp only
  rw [List.length_append, List.length_singleton]
  omega

section Work

variable (env : Env) (ep : Ep)

/-- A `FIN` is parked at worst. -/
theorem work_rdsSendFin (peer : SockAddr) (id : UInt64) :
    (rdsSendFin env ep peer id).work ≤ ep.work + 2 := by
  obtain h | h | ⟨-, t, h⟩ := rdsSendFin_cases env ep peer id
  · rw [h]
    refine (ep.work_sent (finDgram ep.cfg.self peer id)).trans_le ?_
    rw [work_finDgram]
    exact Nat.le_succ _
  · rw [h]
    exact (ep.work_parked (.fin peer id)).le
  · rw [h]
    exact Nat.le_add_right _ _

theorem work_rdsRndzvRxFinalize (p : Pending) :
    (rdsRndzvRxFinalize env ep p).work ≤ ep.work + 2 := by
  rw [rdsRndzvRxFinalize_eq env ep p rfl]
  exact work_rdsSendFin env ep p.peer p.peerId

/-- An operation that ends gives up its work. -/
theorem work_unlinkPending {p : Pending} {id : UInt64} (hfind : rdsPendingFind ep id = some p) :
    (ep.unlinkPending id).work + 3 = ep.work := by
  have hmem := List.mem_of_find?_eq_some hfind
  have hlen : (ep.pending.eraseP (·.id == id)).length + 1 = ep.pending.length := by
    rw [List.length_eraseP_of_mem hmem (List.find?_some hfind)]
    have := List.length_pos_of_mem hmem
    omega
  unfold Ep.unlinkPending Ep.work
  dsimp only
  omega

theorem work_finalize_unlink {ep : Ep} {p q : Pending}
    (hfind : rdsPendingFind ep q.id = some p) :
    ((rdsRndzvRxFinalize env ep q).unlinkPending q.id).work < ep.work := by
  have hpending : (rdsRndzvRxFinalize env ep q).pending = ep.pending :=
    (Ep.Reports.finalize env ep q).pending
  have hunlink : ((rdsRndzvRxFinalize env ep q).unlinkPending q.id).work + 3
      = (rdsRndzvRxFinalize env ep q).work :=
    work_unlinkPending _ (p := p) (by rw [rdsPendingFind, hpending]; exact hfind)
  have hfinal := work_rdsRndzvRxFinalize env ep q
  omega

theorem work_storePending (p : Pending) : (ep.storePending p).work = ep.work := by
  have hlen : (ep.pending.modifyFirst (·.id == p.id) (fun _ => p)).length = ep.pending.length := by
    cases hfind : ep.pending.find? (·.id == p.id) with
    | none => rw [List.modifyFirst_of_none hfind]
    | some q =>
      obtain ⟨l₁, l₂, hl, -, -, -, hmod⟩ := List.find?_split hfind
      rw [hmod, hl, List.length_append, List.length_append, List.length_cons, List.length_cons]
  unfold Ep.storePending Ep.work
  dsimp only
  rw [hlen]

/-- A read is parked at worst. -/
theorem work_foldl_rdsIssueRead (peer : SockAddr) (rts : UInt64) (rs : List ReadReq)
    (s : Ep × Pending) :
    (rs.foldl (rdsIssueRead env peer rts) s).1.work ≤ s.1.work + 2 * rs.length := by
  induction rs generalizing s with
  | nil => exact le_rfl
  | cons r rs ih =>
    obtain ⟨ep, p⟩ := s
    have hread : (rdsIssueRead env peer rts (ep, p) r).1.work ≤ ep.work + 2 := by
      obtain h | h | ⟨t, e, h⟩ := rdsIssueRead_cases env peer rts ep p r
      · rw [h]
        exact (ep.work_issued (r.op peer p.id rts)).trans_le (Nat.le_succ _)
      · rw [h]
        exact (ep.work_parked (.read peer r.cookie r.remoteOff r.liov p.id rts)).le
      · rw [h]
        exact Nat.le_add_right _ _
    have hrest := ih (rdsIssueRead env peer rts (ep, p) r)
    rw [List.foldl_cons, List.length_cons]
    dsimp only
    omega

theorem work_rdsStartRndzvRead (rx : RxEntry) (hdr : Hdr) (segs : List Seg) (peer : SockAddr)
    (src : UInt64) :
    (rdsStartRndzvRead env ep rx hdr segs peer src).work ≤ ep.work + 2 * segs.length + 3 := by
  refine rdsStartRndzvRead_elim (fun _ => ?_) (fun _ e q hreads => ?_)
  · rw [rdsCqWriteRx_eq]
    show (rdsSendFin env { ep with tick := ep.tick + 1 } peer hdr.id).work ≤ _
    have hfin := work_rdsSendFin env { ep with tick := ep.tick + 1 } peer hdr.id
    have hsame : ({ ep with tick := ep.tick + 1 } : Ep).work = ep.work := rfl
    omega
  have hissue := work_foldl_rdsIssueRead env peer hdr.id
    (rndzvReads rx.iov (min hdr.size.toNat rx.totalLen) 0 segs)
    (ep.rxOpened rx hdr, ep.rxOperation rx hdr peer src)
  have hlen := length_rndzvReads rx.iov (min hdr.size.toNat rx.totalLen) 0 segs
  have hopened : (ep.rxOpened rx hdr).work = ep.work := rfl
  rw [hreads] at hissue
  dsimp only at hissue
  split
  · have hfinal := work_rdsRndzvRxFinalize env e q
    omega
  · have hlink : (e.linkPending q).work = e.work + 3 := by
      unfold Ep.linkPending Ep.work
      dsimp only
      rw [List.length_append, List.length_singleton]
      omega
    omega

theorem work_rdsDeliver (rx : RxEntry) (m : Unexp) :
    (rdsDeliver env ep rx m).work ≤ ep.work + 2 * m.segs.length + 3 := by
  refine rdsDeliver_elim (fun _ => ?_) (fun _ => ?_)
  · exact Nat.le_add_right_of_le (Nat.le_add_right _ _)
  · exact work_rdsStartRndzvRead env _ rx m.hdr m.segs m.src m.addr

theorem work_rdsHandleMessage (m : Unexp) :
    (rdsHandleMessage env ep m).work ≤ ep.work + 2 * m.segs.length + 3 := by
  -- what is buffered is no work until a receive takes it
  have hsame (t : ℕ) : ({ ep with arrivals := ep.arrivals + 1, tick := t } : Ep).work
      ≤ ep.work + 2 * m.segs.length + 3 := by
    show ep.work ≤ _
    omega
  refine rdsHandleMessage_elim (fun rx _ => work_rdsDeliver env _ rx m) (fun _ t => hsame t)
    (fun _ _ t => ?_) (fun _ t => hsame t)
  have hfin := work_rdsSendFin env { ep with arrivals := ep.arrivals + 1, tick := t } m.src m.hdr.id
  have hwork : ({ ep with arrivals := ep.arrivals + 1, tick := t } : Ep).work = ep.work := rfl
  omega

theorem work_rdsPendingComplete {p q : Pending} (hfind : rdsPendingFind ep p.id = some q) :
    (rdsPendingComplete ep p).work + 3 = ep.work := by
  rw [rdsPendingComplete_eq]
  exact work_unlinkPending ep hfind

variable {ep}

/-- **Taking in a message uses it up.** -/
theorem work_rdsHandleInbound (hring : ep.cfg.eagerRdma = false) (hdr : Hdr)
    (payload : List UInt8) (src : SockAddr) (srcFi : UInt64) :
    (rdsHandleInbound env ep hdr payload src srcFi).work < ep.work + hdr.work := by
  have hpos := hdr.work_pos
  refine rdsHandleInbound_elim (Nat.lt_add_of_pos_right hpos) (fun p hfind _ => ?_) (fun _ _ => ?_)
    (fun hfin hctrl => ?_)
  · have := work_rdsPendingComplete ep hfind
    omega
  · unfold rdsRingHandleCtrl
    rw [hring]
    exact Nat.lt_add_of_pos_right hpos
  have hwork : hdr.work = 2 * hdr.segCnt.toNat + 4 := if_neg (not_or.mpr ⟨hfin, hctrl⟩)
  have hmsg := work_rdsHandleMessage env ep (Unexp.ofInbound hdr payload src srcFi ep.arrivals)
  have hsegs : (Unexp.ofInbound hdr payload src srcFi ep.arrivals).segs.length
      ≤ hdr.segCnt.toNat := by
    unfold Unexp.ofInbound
    dsimp only
    split
    · exact Nat.zero_le _
    · exact (decodeSegs_length _ _).le
  omega

/-- **Taking in a datagram uses it up.** -/
theorem work_rdsRecvDgram (hring : ep.cfg.eagerRdma = false) (src : SockAddr) (d : Dgram) :
    (rdsRecvDgram env ep src d.bytes).work < ep.work + d.work := by
  exact rdsRecvDgram_elim (Nat.lt_add_of_pos_right d.hdr.work_pos)
    (work_rdsHandleInbound env hring _ _ src _)

/-- A notification causes no more work than the operation it ends gives up. -/
theorem work_rdsHandleRdmaNotify (token : UInt64) (status : ℤ) :
    (rdsHandleRdmaNotify env ep token status).work ≤ ep.work := by
  refine rdsHandleRdmaNotify_elim le_rfl (fun p n _ _ => ?_) (fun p hfind _ => ?_)
    (fun p hfind _ => ?_)
  · exact (work_storePending { ep with trace := ep.trace ++ p.acks status } _).le
  · have hwork := work_rdsPendingComplete { ep with trace := ep.trace ++ p.acks status }
      (p := { p with
        error := (p.heed status).error
        segRemaining := p.segRemaining - 1 }) hfind
    exact Nat.le_of_add_right_le hwork.le
  · have hfind' : rdsPendingFind { ep with trace := ep.trace ++ p.acks status } p.id = some p :=
      hfind
    exact (work_finalize_unlink env (q := { p with
      error := (p.heed status).error, segRemaining := p.segRemaining - 1 }) hfind').le

/-- A retry uses up the parked operation, unless it stays parked. -/
theorem work_rdsRetryDeferred (d : Deferred) :
    (rdsRetryDeferred env ep d).1.work ≤ ep.work + 1
      ∧ ((rdsRetryDeferred env ep d).2 = true → (rdsRetryDeferred env ep d).1.work = ep.work
        ∧ (rdsRetryDeferred env ep d).1.deferred = ep.deferred) := by
  refine rdsRetryDeferred_elim (fun peer id => ⟨?_, nofun⟩)
    (fun _ => ⟨Nat.le_succ _, fun _ => ⟨rfl, rfl⟩⟩) (fun _ _ => ⟨Nat.le_succ _, nofun⟩)
    (fun _ => ⟨Nat.le_succ _, nofun⟩) (fun p e q hfind _ hcases => ⟨?_, nofun⟩)
  · refine (ep.work_sent (finDgram ep.cfg.self peer id)).trans_le ?_
    rw [work_finDgram]
  -- an issued read is in flight; a failed one is gone
  have he : e.work ≤ ep.work + 1 ∧ rdsPendingFind e q.id = some p := by
    obtain ⟨t, op, rfl, rfl⟩ | ⟨t, err, rfl, rfl⟩ := hcases
    · exact ⟨(ep.work_issued _).le, hfind⟩
    · refine ⟨Nat.le_succ _, ?_⟩
      have hfail :
          (({ p with segDeferred := p.segDeferred - 1 } : Pending).fail err).id = p.id := by
        unfold Pending.fail
        split
        · rfl
        · rfl
      rw [hfail]
      exact hfind
  dsimp only
  split
  · have := work_finalize_unlink env he.2
    omega
  · rw [work_storePending]
    exact he.1

/-- The walk uses up what it takes from the queue, or leaves the queue as it was. -/
theorem work_rdsProgressDeferredLoop (fuel : ℕ) (kept : List Deferred) {r : Ep × List Deferred}
    (hr : rdsProgressDeferredLoop env fuel kept ep = r) :
    r.1.work + 2 * r.2.length < ep.work + 2 * kept.length
      ∨ (r.1.work + 2 * r.2.length = ep.work + 2 * kept.length
        ∧ r.2 ++ r.1.deferred = kept ++ ep.deferred) := by
  induction fuel generalizing kept ep with
  | zero =>
    rw [← hr]
    exact .inr ⟨rfl, rfl⟩
  | succ fuel ih =>
    rw [rdsProgressDeferredLoop] at hr
    cases hqueue : ep.deferred with
    | nil =>
      rw [hqueue] at hr
      rw [← hr]
      exact .inr ⟨rfl, congrArg (kept ++ ·) hqueue⟩
    | cons d todo =>
      rw [hqueue] at hr
      dsimp only at hr
      have htaken : ({ ep with deferred := todo } : Ep).work + 2 = ep.work := by
        unfold Ep.work
        dsimp only
        rw [hqueue, List.length_cons]
        omega
      obtain ⟨hwork, hstays⟩ := @work_rdsRetryDeferred env { ep with deferred := todo } d
      generalize rdsRetryDeferred env { ep with deferred := todo } d = s at hr hwork hstays
      obtain ⟨e, stays⟩ := s
      dsimp only at hr hwork hstays
      -- the rest of the walk starts from less work, or from the same queue
      have hnext : e.work + 2 * (if stays then kept ++ [d] else kept).length
            < ep.work + 2 * kept.length
          ∨ (e.work + 2 * (if stays then kept ++ [d] else kept).length
              = ep.work + 2 * kept.length
            ∧ (if stays then kept ++ [d] else kept) ++ e.deferred = kept ++ d :: todo) := by
        cases stays with
        | false => exact .inl (show e.work + 2 * kept.length < _ by omega)
        | true =>
          obtain ⟨hsame, hdeferred⟩ := hstays rfl
          rw [if_pos rfl, List.length_append, List.length_singleton, hdeferred]
          exact .inr ⟨by omega, List.append_assoc _ _ _⟩
      split at hr
      · rw [← hr]
        exact hnext
      · obtain hlt | ⟨heq, hlist⟩ := ih _ hr
        · omega
        · obtain hlt' | ⟨heq', hlist'⟩ := hnext
          · omega
          · exact .inr ⟨heq.trans heq', hlist.trans hlist'⟩

/-- **Walking the deferred queue uses up work**, or leaves the queue as it was. -/
theorem work_rdsProgressDeferred :
    (rdsProgressDeferred env ep).1.work < ep.work
      ∨ (rdsProgressDeferred env ep).1.deferred = ep.deferred := by
  unfold rdsProgressDeferred
  obtain ⟨r, hr⟩ : ∃ r, rdsProgressDeferredLoop env (2 * ep.deferred.length) [] ep = r := ⟨_, rfl⟩
  have hloop := work_rdsProgressDeferredLoop env _ [] hr
  rw [hr]
  obtain ⟨e, kept⟩ := r
  have hjoin : ({ e with deferred := kept ++ e.deferred } : Ep).work
      = e.work + 2 * kept.length := by
    unfold Ep.work
    dsimp only
    rw [List.length_append]
    omega
  obtain hlt | ⟨-, hlist⟩ := hloop
  · exact .inl (hjoin.trans_lt hlt)
  · exact .inr hlist

end Work

/-! ## Room -/

section Room

variable {env : Env} (hroom : ∀ t op, env.sendmsg t op = none)

include hroom

theorem deferred_rdsSendFin_roomy (ep : Ep) (peer : SockAddr) (id : UInt64) :
    (rdsSendFin env ep peer id).deferred = ep.deferred := by
  unfold rdsSendFin rdsSendFinRaw
  obtain ⟨-, h⟩ | ⟨e, e', hsend, -⟩ := ep.sendDgram_cases env peer (finHdr id).encode
  · rw [h]
  · rw [hroom] at hsend
    cases hsend

/-- With room, nothing is refused. -/
theorem Deferred.not_refused_roomy (ep : Ep) (d : Deferred) : ¬ d.Refused env ep := by
  rintro ⟨hagain, -⟩
  cases d with
  | fin peer id =>
    obtain ⟨-, h⟩ | ⟨e, e', hsend, -⟩ := ep.sendDgram_cases env peer (finHdr id).encode
    · rw [Deferred.attempt, rdsSendFinRaw, h] at hagain
      cases hagain
    · rw [hroom] at hsend
      cases hsend
  | read peer cookie remoteOff liov id rts =>
    rw [Deferred.attempt] at hagain
    obtain ⟨-, h⟩ | ⟨_, _, hsend, -⟩ | ⟨-, -, h⟩ | ⟨-, -, h⟩ :=
      rdsPostRdma_cases env ep ((⟨cookie, remoteOff, liov⟩ : ReadReq).op peer id rts)
    · rw [h] at hagain
      exact absurd (Ret.err.inj hagain) (by decide)
    · rw [hroom] at hsend
      cases hsend
    · rw [h] at hagain
      cases hagain
    · rw [h] at hagain
      cases hagain

/-- With room, what is retried goes, and parks nothing. -/
theorem rdsRetryDeferred_roomy (ep : Ep) (d : Deferred) :
    (rdsRetryDeferred env ep d).2 = false
      ∧ (rdsRetryDeferred env ep d).1.deferred = ep.deferred := by
  refine ⟨?_, ?_⟩
  · rw [← Bool.not_eq_true, rdsRetryDeferred_stays]
    exact Deferred.not_refused_roomy hroom ep d
  · refine rdsRetryDeferred_elim (fun _ _ => rfl) (fun _ => rfl) (fun _ _ => rfl) (fun _ => rfl)
      (fun p e q _ _ hcases => ?_)
    have he : e.deferred = ep.deferred := by
      obtain ⟨t, op, rfl, -⟩ | ⟨t, err, rfl, -⟩ := hcases
      · rfl
      · rfl
    rw [← he]
    dsimp only
    split
    · obtain ⟨e', cqes, hout, hfinal, -⟩ := rdsRndzvRxFinalize_cases env e q
      rw [hfinal]
      exact hout.deferred.trans (deferred_rdsSendFin_roomy hroom e q.peer q.peerId)
    · rfl

theorem rdsProgressDeferredLoop_roomy {fuel : ℕ} (kept : List Deferred) (ep : Ep)
    (hfuel : ep.deferred.length ≤ fuel) :
    (rdsProgressDeferredLoop env fuel kept ep).2 = kept
      ∧ (rdsProgressDeferredLoop env fuel kept ep).1.deferred = [] := by
  induction fuel generalizing ep with
  | zero => exact ⟨rfl, List.eq_nil_of_length_eq_zero (Nat.le_zero.mp hfuel)⟩
  | succ fuel ih =>
    rw [rdsProgressDeferredLoop]
    cases htodo : ep.deferred with
    | nil => exact ⟨rfl, htodo⟩
    | cons d todo =>
      dsimp only
      obtain ⟨hgone, hrest⟩ := rdsRetryDeferred_roomy hroom { ep with deferred := todo } d
      generalize rdsRetryDeferred env { ep with deferred := todo } d = s at hgone hrest
      obtain ⟨e, stays⟩ := s
      dsimp only at hgone hrest ⊢
      rw [hgone, if_neg Bool.false_ne_true]
      by_cases hlast : todo = []
      · rw [if_pos hlast]
        exact ⟨rfl, hrest.trans hlast⟩
      · rw [if_neg hlast]
        refine ih e ?_
        rw [hrest]
        rw [htodo, List.length_cons] at hfuel
        exact Nat.le_of_succ_le_succ hfuel

/-- **A walk with room drains the queue.** -/
theorem rdsProgressDeferred_roomy (ep : Ep) : (rdsProgressDeferred env ep).1.deferred = [] := by
  obtain ⟨hkept, hrest⟩ := rdsProgressDeferredLoop_roomy hroom [] ep
    (show ep.deferred.length ≤ 2 * ep.deferred.length by omega)
  unfold rdsProgressDeferred
  dsimp only
  rw [hkept, hrest, List.append_nil]

end Room
