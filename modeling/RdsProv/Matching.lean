import RdsProv.Machine

/-!
# Matching

A message meets a receive either when it arrives or when the receive is posted.
The two scans together keep one invariant, `MatchInv`: no posted receive takes
any message still on the unexpected list of its kind, and both lists are in the
order of posting and of arrival.

Everything a matched message sets off – reads, `FIN`s, completions – leaves the
lists alone (`Ep.Unmatched`), so the invariant is a matter of the two scans and
of `rds_ep_cancel`.
-/

/-! ## What leaves the lists alone -/

/-- The message and the receive of a pairing. -/
def Event.pairing? : Event → Option (Unexp × RxEntry)
  | .paired m r => some (m, r)
  | _ => none

/-- The pairings made so far, in the order they were made. -/
def Ep.pairings (ep : Ep) : List (Unexp × RxEntry) := ep.trace.filterMap Event.pairing?

theorem Ep.pairings_of_trace {ep ep' : Ep} {evs : List Event}
    (h : ep'.trace = ep.trace ++ evs) :
    ep'.pairings = ep.pairings ++ evs.filterMap Event.pairing? := by
  rw [pairings, h, List.filterMap_append]
  rfl

theorem Ep.pairings_of_paired {ep ep' : Ep} {m : Unexp} {r : RxEntry}
    (h : ep'.trace = ep.trace ++ [.paired m r]) : ep'.pairings = ep.pairings ++ [(m, r)] :=
  pairings_of_trace h

/-- The matching lists are as they were and no pairing was made; messages,
receives and ids may have been counted. -/
structure Ep.Unmatched (ep ep' : Ep) : Prop where
  cfg : ep'.cfg = ep.cfg
  posted : ep'.posted = ep.posted
  unexp : ep'.unexp = ep.unexp
  postings : ep.postings ≤ ep'.postings
  arrivals : ep.arrivals ≤ ep'.arrivals
  idsGiven : ep.idsGiven ≤ ep'.idsGiven
  pairings : ep'.pairings = ep.pairings

/-- An underflow is no pairing. -/
theorem Pending.pairing?_underflows (p : Pending) (id : UInt64) :
    (p.underflows id).filterMap Event.pairing? = [] := by
  unfold underflows
  split
  · rfl
  · rfl

namespace Ep.Unmatched

theorem of_outer {ep ep' : Ep} (h : ep.Outer ep') : ep.Unmatched ep' :=
  ⟨h.cfg, h.posted, h.unexp, h.postings.ge, h.arrivals.ge, h.idsGiven.ge,
    congrArg (List.filterMap Event.pairing?) h.trace⟩

theorem refl (ep : Ep) : ep.Unmatched ep := of_outer (.refl ep)

theorem trans {e₁ e₂ e₃ : Ep} (h : e₁.Unmatched e₂) (h' : e₂.Unmatched e₃) :
    e₁.Unmatched e₃ where
  cfg := h'.cfg.trans h.cfg
  posted := h'.posted.trans h.posted
  unexp := h'.unexp.trans h.unexp
  postings := h.postings.trans h'.postings
  arrivals := h.arrivals.trans h'.arrivals
  idsGiven := h.idsGiven.trans h'.idsGiven
  pairings := h'.pairings.trans h.pairings

theorem ite {ep a b : Ep} {c : Prop} [Decidable c] (ha : ep.Unmatched a)
    (hb : ep.Unmatched b) : ep.Unmatched (if c then a else b) := by
  split
  · exact ha
  · exact hb

/-- Changes to the pending and deferred operations and to what is in flight. -/
theorem of_eq {ep ep' : Ep} (h : ep' = { ep with
      pending := ep'.pending, deferred := ep'.deferred, tick := ep'.tick
      wire := ep'.wire, inflight := ep'.inflight, writes := ep'.writes
      rndzvTxInflight := ep'.rndzvTxInflight, domain := ep'.domain, peers := ep'.peers }) :
    ep.Unmatched ep' := by
  rw [h]
  exact ⟨rfl, rfl, rfl, le_rfl, le_rfl, le_rfl, rfl⟩

/-- Drawing an id. -/
theorem withId (ep : Ep) : ep.Unmatched ep.withId :=
  ⟨rfl, rfl, rfl, le_rfl, le_rfl, Nat.le_succ _, rfl⟩

/-- An event other than a pairing. -/
theorem log (ep : Ep) {e : Event} (h : e.pairing? = none) : ep.Unmatched (ep.log e) := by
  have hpairs : (ep.log e).pairings = ep.pairings ++ [e].filterMap Event.pairing? :=
    pairings_of_trace rfl
  rw [List.filterMap_cons_none h, List.filterMap_nil, List.append_nil] at hpairs
  exact ⟨rfl, rfl, rfl, le_rfl, le_rfl, le_rfl, hpairs⟩

theorem sendFin (env : Env) (ep : Ep) (peer : SockAddr) (id : UInt64) :
    ep.Unmatched (rdsSendFin env ep peer id) := by
  rcases rdsSendFin_cases env ep peer id with h | h | ⟨-, t, h⟩
  · rw [h]
    exact of_eq rfl
  · rw [h]
    exact of_eq rfl
  · rw [h]
    exact (of_eq rfl).trans (log { ep with tick := t } (e := .finLost peer id) rfl)

theorem finalize (env : Env) (ep : Ep) (p : Pending) :
    ep.Unmatched (rdsRndzvRxFinalize env ep p) := by
  obtain ⟨e, cqes, hout, h, -⟩ := rdsRndzvRxFinalize_cases env ep p
  rw [h]
  exact ((sendFin env ep p.peer p.peerId).trans (of_outer hout)).trans (log e rfl)

theorem foldl_issueRead (env : Env) (peer : SockAddr) (rts : UInt64) (rs : List ReadReq)
    (s : Ep × Pending) : s.1.Unmatched (rs.foldl (rdsIssueRead env peer rts) s).1 := by
  refine rdsIssueReads_keeps (P := fun e _ => s.1.Unmatched e)
    (fun _ _ _ _ h => h.trans (of_eq rfl)) (fun _ _ _ _ h => h.trans (of_eq rfl))
    (fun e p t _ h => ?_) rs (refl s.1)
  have htick : e.Unmatched { e with tick := t } := of_eq rfl
  exact (h.trans htick).trans (log _ (e := .readFail p.id) rfl)

theorem startRndzvRead (env : Env) (ep : Ep) (rx : RxEntry) (hdr : Hdr) (segs : List Seg)
    (peer : SockAddr) (src : UInt64) :
    ep.Unmatched (rdsStartRndzvRead env ep rx hdr segs peer src) := by
  refine rdsStartRndzvRead_elim (fun _ => ?_) (fun _ e q hreads => ?_)
  · exact ((of_eq rfl).trans (sendFin env _ peer hdr.id)).trans
      (of_outer (rdsCqWriteRx_outer _ _ _ _ _ _ _ _))
  have hopen : ep.Unmatched (ep.rxOpened rx hdr) :=
    ((withId ep).trans (of_eq rfl)).trans (log { ep.withId with tick := ep.tick + 1 } rfl)
  have hissue := hopen.trans (foldl_issueRead env peer hdr.id
    (rndzvReads rx.iov (min hdr.size.toNat rx.totalLen) 0 segs)
    (ep.rxOpened rx hdr, ep.rxOperation rx hdr peer src))
  rw [hreads] at hissue
  exact ite (hissue.trans (finalize env e q)) (hissue.trans (of_eq rfl))

theorem pendingComplete (ep : Ep) {p : Pending} (hp : p.type ≠ .rndzvRx) :
    ep.Unmatched (rdsPendingComplete ep p) := by
  cases htype : p.type with
  | rndzvRx => exact absurd htype hp
  | rndzvTx =>
    obtain ⟨e, n, hout, h⟩ := rdsPendingComplete_tx ep htype
    have hlog : e.Unmatched (e.log (.txDone p.id)) := log e rfl
    rw [h]
    exact ((of_outer hout).trans hlog).trans (of_eq rfl)
  | rma =>
    obtain ⟨e, hout, h⟩ := rdsPendingComplete_rma ep htype
    rw [h]
    exact (of_outer hout).trans (of_eq rfl)

theorem handleRdmaNotify (env : Env) (ep : Ep) (token : UInt64) (status : ℤ) :
    ep.Unmatched (rdsHandleRdmaNotify env ep token status) := by
  have hacks (p : Pending) : ep.Unmatched { ep with trace := ep.trace ++ p.acks status } := by
    unfold Pending.acks
    split
    · exact log ep rfl
    · rw [List.append_nil]
      exact refl ep
  refine rdsHandleRdmaNotify_elim (refl ep) (fun p n _ _ => ?_) (fun p _ htype => ?_)
    (fun p _ _ => ?_)
  · exact (hacks p).trans (of_eq rfl)
  · exact (hacks p).trans (pendingComplete _ (by dsimp only; rw [htype]; decide))
  · exact ((hacks p).trans (finalize env _ _)).trans (of_eq rfl)

theorem retryDeferred (env : Env) (ep : Ep) (d : Deferred) :
    ep.Unmatched (rdsRetryDeferred env ep d).1 := by
  refine rdsRetryDeferred_elim (fun _ _ => of_eq rfl) (fun _ => of_eq rfl) (fun peer id => ?_)
    (fun _ => log ep rfl) (fun p e q _ _ hcases => ?_)
  · exact (of_eq rfl).trans (log { ep with tick := ep.tick + 1 } (e := .finLost peer id) rfl)
  have hstep : ep.Unmatched e := by
    obtain ⟨t, op, rfl, -⟩ | ⟨t, err, rfl, -⟩ := hcases
    · refine ⟨rfl, rfl, rfl, le_rfl, le_rfl, le_rfl, ?_⟩
      exact (pairings_of_trace rfl).trans (by rw [p.pairing?_underflows, List.append_nil])
    · refine ⟨rfl, rfl, rfl, le_rfl, le_rfl, le_rfl, ?_⟩
      refine (pairings_of_trace (List.append_assoc _ _ _)).trans ?_
      rw [List.filterMap_append, p.pairing?_underflows]
      exact List.append_nil _
  exact ite ((hstep.trans (finalize env e q)).trans (of_eq rfl)) (hstep.trans (of_eq rfl))

theorem progressDeferred (env : Env) (ep : Ep) :
    ep.Unmatched (rdsProgressDeferred env ep).1 :=
  rdsProgressDeferred_keeps (fun _ _ h => h.trans (of_eq rfl))
    (fun e d h => h.trans (retryDeferred env e d)) (refl ep)

theorem requests {ep ep' : Ep} {dest : SockAddr} {p : Pending} {hdr : Hdr} {segs : List Seg}
    (h : ep.Requests ep' dest p hdr segs) : ep.Unmatched ep' := by
  have htx : ∀ e : Ep, e.Unmatched (e.withTx p) := fun e =>
    (log e (e := .txOpen p.id) rfl).trans (of_eq rfl)
  rcases h with ⟨e, t, hout, h⟩ | ⟨-, e, ⟨writes, w, idx, slot, hout, -⟩, h⟩
  · rw [h]
    exact ((of_outer hout).trans (of_eq rfl)).trans (htx _)
  · rw [h]
    exact ((of_outer hout).trans (of_eq rfl)).trans (htx e)

theorem genericSend (env : Env) (ep : Ep) (iov : List Iovec) (destAddr tag data : UInt64)
    (context : ℕ) (flags : UInt64) (tagged : Bool) :
    ep.Unmatched (rdsGenericSend env ep iov destAddr tag data context flags tagged).1 := by
  rcases rdsGenericSend_cases env ep iov destAddr tag data context flags tagged rfl
    with h | ⟨-, h⟩ | ⟨-, dest, genComp, segs, mrs, cached, -, -, -, h⟩
  · exact of_outer h
  · exact (withId ep).trans (of_outer h)
  · exact (withId ep).trans (requests h)

theorem startsRma {ep e : Ep} (h : ep.StartsRma e) : ep.Unmatched e := by
  have hissued (t : ℕ) (ops : List RdmaOp) : ep.Unmatched (ep.issued t ops) :=
    (withId ep).trans (of_eq rfl)
  cases h with
  | refused t => exact of_eq rfl
  | issued t ops => exact hissued t ops
  | pending t ops p _ _ _ _ => exact (hissued t ops).trans (of_eq rfl)

/-- What a pairing sets off. -/
theorem deliver (env : Env) (ep : Ep) (rx : RxEntry) (m : Unexp) :
    (ep.log (.paired m rx)).Unmatched (rdsDeliver env ep rx m) :=
  rdsDeliver_elim (fun _ => of_outer (.of_eq rfl)) (fun _ => startRndzvRead env _ _ _ _ _ _)

end Ep.Unmatched

/-! ## What can happen to the lists -/

namespace Ep

/-- A message arrives and is given to a posted receive. -/
def takePosted (ep : Ep) (m : Unexp) (r : RxEntry) : Ep :=
  { ep with
    arrivals := ep.arrivals + 1
    posted := Function.update ep.posted m.hdr.tagged
      ((ep.posted m.hdr.tagged).eraseP (fun rx => rdsMatches m.hdr.tagged rx m.addr m.hdr.tag))
    trace := ep.trace ++ [.paired m r] }

/-- A message arrives and becomes unexpected. -/
def queueArrival (ep : Ep) (m : Unexp) : Ep :=
  { ep with
    arrivals := ep.arrivals + 1
    unexp := Function.update ep.unexp m.hdr.tagged (ep.unexp m.hdr.tagged ++ [m]) }

/-- A receive is posted and given an unexpected message. -/
def takeUnexp (ep : Ep) (k : Bool) (m : Unexp) (r : RxEntry) : Ep :=
  { ep with
    postings := ep.postings + 1
    unexp := Function.update ep.unexp k
      ((ep.unexp k).eraseP (fun ux => rdsMatches k r ux.addr ux.hdr.tag))
    trace := ep.trace ++ [.paired m r] }

/-- A receive is posted and waits. -/
def queuePosting (ep : Ep) (k : Bool) (r : RxEntry) : Ep :=
  { ep with
    postings := ep.postings + 1
    posted := Function.update ep.posted k (ep.posted k ++ [r]) }

/-- A posted receive is withdrawn. -/
def withdraw (ep : Ep) (k : Bool) (context : ℕ) : Ep :=
  { ep with
    posted := Function.update ep.posted k ((ep.posted k).eraseP (·.context == context)) }

/-- **Everything an action can do to the matching lists**, up to what leaves them
alone. -/
inductive MatchStep (ep ep' : Ep) : Prop
  | quiet (h : ep.Unmatched ep')
  | arrive (m : Unexp) (r : RxEntry) (hno : m.no = ep.arrivals)
      (hfind : (ep.posted m.hdr.tagged).find?
        (fun rx => rdsMatches m.hdr.tagged rx m.addr m.hdr.tag) = some r)
      (h : (ep.takePosted m r).Unmatched ep')
  | queue (m : Unexp) (hno : m.no = ep.arrivals) (hsegs : m.segs.length < 2 ^ 16)
      (hfind : (ep.posted m.hdr.tagged).find?
        (fun rx => rdsMatches m.hdr.tagged rx m.addr m.hdr.tag) = none)
      (h : (ep.queueArrival m).Unmatched ep')
  | post (k : Bool) (m : Unexp) (r : RxEntry) (hno : r.no = ep.postings)
      (hfind : (ep.unexp k).find? (fun ux => rdsMatches k r ux.addr ux.hdr.tag) = some m)
      (h : (ep.takeUnexp k m r).Unmatched ep')
  | enlist (k : Bool) (r : RxEntry) (hno : r.no = ep.postings)
      (hfind : (ep.unexp k).find? (fun ux => rdsMatches k r ux.addr ux.hdr.tag) = none)
      (h : (ep.queuePosting k r).Unmatched ep')
  | cancel (k : Bool) (context : ℕ) (h : (ep.withdraw k context).Unmatched ep')

/-- **What a message that arrives meets**: a receive that takes it, the unexpected list,
or no memory. -/
inductive Meets (m : Unexp) (ep ep' : Ep) : Prop
  | lost (h : ep.Unmatched ep')
  | taken (r : RxEntry)
      (hfind : (ep.posted m.hdr.tagged).find?
        (fun rx => rdsMatches m.hdr.tagged rx m.addr m.hdr.tag) = some r)
      (h : (ep.takePosted m r).Unmatched ep')
  | queued (hfind : (ep.posted m.hdr.tagged).find?
        (fun rx => rdsMatches m.hdr.tagged rx m.addr m.hdr.tag) = none)
      (h : (ep.queueArrival m).Unmatched ep')

namespace Meets

variable {m : Unexp}

theorem trans_unmatched {ep e ep' : Ep} (h : ep.Meets m e) (h' : e.Unmatched ep') :
    ep.Meets m ep' := by
  cases h with
  | lost h => exact lost (h.trans h')
  | taken r hfind h => exact taken r hfind (h.trans h')
  | queued hfind h => exact queued hfind (h.trans h')

theorem of_outer {ep e ep' : Ep} (h₀ : ep.Outer e) (h : e.Meets m ep') : ep.Meets m ep' := by
  have hposted := h₀.posted
  have hunexp := h₀.unexp
  have harrivals := h₀.arrivals
  cases h with
  | lost h => exact lost ((Unmatched.of_outer h₀).trans h)
  | taken r hfind h =>
    rw [hposted] at hfind
    refine taken r hfind (Unmatched.trans ?_ h)
    refine ⟨h₀.cfg, by rw [takePosted, takePosted, hposted], hunexp, h₀.postings.ge,
      (congrArg (· + 1) harrivals).ge, h₀.idsGiven.ge, ?_⟩
    show (e.trace ++ _).filterMap Event.pairing? = (ep.trace ++ _).filterMap Event.pairing?
    rw [h₀.trace]
  | queued hfind h =>
    rw [hposted] at hfind
    refine queued hfind (Unmatched.trans ?_ h)
    exact ⟨h₀.cfg, hposted, by rw [queueArrival, queueArrival, hunexp], h₀.postings.ge,
      (congrArg (· + 1) harrivals).ge, h₀.idsGiven.ge,
      congrArg (List.filterMap Event.pairing?) h₀.trace⟩

/-- **A message arrives.** -/
theorem handleMessage (env : Env) (ep : Ep) (m : Unexp) :
    ep.Meets m (rdsHandleMessage env ep m) := by
  have hcount (t : ℕ) : ep.Unmatched { ep with arrivals := ep.arrivals + 1, tick := t } :=
    ⟨rfl, rfl, rfl, le_rfl, Nat.le_succ _, le_rfl, rfl⟩
  refine rdsHandleMessage_elim (fun rx hfind => ?_) (fun hfind t => queued hfind (.of_eq rfl))
    (fun _ _ t => lost ((hcount t).trans (.sendFin env _ _ _))) (fun _ t => lost (hcount t))
  have hdeliver := Unmatched.deliver env { ep with
    arrivals := ep.arrivals + 1
    posted := Function.update ep.posted m.hdr.tagged ((ep.posted m.hdr.tagged).eraseP
      (fun rx => rdsMatches m.hdr.tagged rx m.addr m.hdr.tag)) } rx m
  exact taken rx hfind hdeliver

end Meets

/-- **At most one message arrives**, from the given source and under the given address. -/
def Hears (src : SockAddr) (addr : UInt64) (ep ep' : Ep) : Prop :=
  ep.Unmatched ep' ∨ ∃ m : Unexp, m.src = src ∧ m.addr = addr ∧ m.no = ep.arrivals
    ∧ m.segs.length < 2 ^ 16 ∧ ep.Meets m ep'

namespace Hears

theorem handleInbound (env : Env) (ep : Ep) (hdr : Hdr) (payload : List UInt8)
    (src : SockAddr) (srcFi : UInt64) :
    ep.Hears src srcFi (rdsHandleInbound env ep hdr payload src srcFi) := by
  refine rdsHandleInbound_elim (.inl (.refl ep)) (fun p _ htype => ?_) (fun _ _ => ?_)
    (fun _ _ => ?_)
  · exact .inl (.pendingComplete ep (by rw [htype]; decide))
  · exact .inl (.of_outer (rdsRingHandleCtrl_outer env ep hdr payload srcFi))
  · refine .inr ⟨_, rfl, rfl, rfl, ?_, .handleMessage env ep _⟩
    show (if hdr.op = rdsOpEager then [] else decodeSegs hdr.segCnt.toNat payload).length < 2 ^ 16
    split
    · exact Nat.two_pow_pos 16
    · rw [decodeSegs_length]
      exact hdr.segCnt.toNat_lt

theorem recvDgram (env : Env) (ep : Ep) (src : SockAddr) (bytes : List UInt8) :
    ep.Hears src (ofiIpAvGetFiAddr ep.cfg src) (rdsRecvDgram env ep src bytes) := by
  exact rdsRecvDgram_elim (.inl (.refl ep)) (handleInbound env ep _ _ _ _)

theorem ringDeliver (env : Env) (ep : Ep) (sa : SockAddr) (addr : UInt64) (slot : RingSlot) :
    ep.Hears sa addr (rdsRingDeliver env ep sa addr slot) := by
  exact rdsRingDeliver_elim (.inl (.refl ep)) (fun hdr payload =>
    handleInbound env ep hdr payload sa addr)

/-- A poll finds a message of the peer it polls. -/
theorem ringPollSlot (env : Env) (ep : Ep) (addr : UInt64) :
    ep.Unmatched ((rdsRingPollSlot env ep addr).getD ep)
      ∨ ∃ p, rdsPeerFind ep addr = some p
        ∧ ep.Hears p.sa p.addr ((rdsRingPollSlot env ep addr).getD ep) := by
  rcases rdsRingPollSlot_outer env ep addr with ⟨h, -⟩ | ⟨p, slot, e, hp, -, h, hnext⟩
  · rw [h]
    exact .inl (.refl ep)
  · rw [h, Option.getD_some]
    have hset := Ep.outer_setPeer ep (p.absorbAck slot.ack)
    refine .inr ⟨p, hp, ?_⟩
    obtain hquiet | ⟨m, hsrc, haddr, hno, hsegs, hmeets⟩ :=
      ringDeliver env (ep.setPeer (p.absorbAck slot.ack)) p.sa p.addr slot
    · exact .inl (((Unmatched.of_outer hset).trans hquiet).trans (.of_outer hnext))
    · exact .inr ⟨m, hsrc, haddr, hno.trans hset.arrivals, hsegs,
        (Meets.of_outer hset hmeets).trans_unmatched (.of_outer hnext)⟩

end Hears

/-- **What a receive that is posted is given**: a message it takes, a place on the posted
list, or no memory. -/
inductive Offers (k : Bool) (r : RxEntry) (ep ep' : Ep) : Prop
  | refused (hfind : (ep.unexp k).find? (fun ux => rdsMatches k r ux.addr ux.hdr.tag) = none)
      (h : ep.Unmatched ep')
  | given (m : Unexp)
      (hfind : (ep.unexp k).find? (fun ux => rdsMatches k r ux.addr ux.hdr.tag) = some m)
      (h : (ep.takeUnexp k m r).Unmatched ep')
  | waits (hfind : (ep.unexp k).find? (fun ux => rdsMatches k r ux.addr ux.hdr.tag) = none)
      (h : (ep.queuePosting k r).Unmatched ep')

namespace Offers

theorem postRecv (env : Env) (ep : Ep) {iov : List Iovec} (hcount : iov.length ≤ rdsIovLimit)
    (addr tag ignore : UInt64) (context : ℕ) (flags : UInt64) (tagged : Bool) :
    ep.Offers tagged (ep.postedEntry iov addr tag ignore context flags tagged)
      (rdsPostRecv env ep iov addr tag ignore context flags tagged).1 := by
  refine rdsPostRecv_elim (fun hover => absurd hcount (not_le.mpr hover))
    (fun rx hrx ux hfind => ?_) (fun _ rx hrx hfind => ?_) (fun rx hrx hfind => ?_)
  · have hdeliver := Unmatched.deliver env { ep with
      postings := ep.postings + 1
      unexp := Function.update ep.unexp tagged ((ep.unexp tagged).eraseP
        (fun ux => rdsMatches tagged rx ux.addr ux.hdr.tag)) } rx ux
    rw [← hrx]
    exact given ux hfind hdeliver
  · rw [← hrx]
    exact refused hfind ⟨rfl, rfl, rfl, Nat.le_succ _, le_rfl, le_rfl, rfl⟩
  · rw [← hrx]
    exact waits hfind (.of_eq rfl)

/-- The pairing a posting makes. -/
theorem pairings {k : Bool} {r : RxEntry} {ep ep' : Ep} (h : ep.Offers k r ep') :
    ep'.pairings = ep.pairings
      ++ (((ep.unexp k).find?
        (fun ux => rdsMatches k r ux.addr ux.hdr.tag)).map (·, r)).toList := by
  cases h with
  | refused hfind h =>
    rw [hfind, h.pairings]
    exact (List.append_nil _).symm
  | given m hfind h =>
    rw [hfind, h.pairings]
    exact pairings_of_paired rfl
  | waits hfind h =>
    rw [hfind, h.pairings]
    exact (List.append_nil _).symm

end Offers

/-- The sources whose messages an action may bring, and the addresses they are matched
under. -/
def heard (ep : Ep) : EpAct → SockAddr → UInt64 → Prop
  | .recv _ src _, s, a => s = src ∧ a = ofiIpAvGetFiAddr ep.cfg src
  | .poll _ addr, s, a => ∃ p, rdsPeerFind ep addr = some p ∧ s = p.sa ∧ a = p.addr
  | _, _, _ => False

/-- **What an action does to the lists**: nothing, or a message arrives, a receive is posted
or one is withdrawn. -/
inductive Moves (heard : SockAddr → UInt64 → Prop) (ep ep' : Ep) : Prop
  | quiet (h : ep.Unmatched ep')
  | hears (src : SockAddr) (addr : UInt64) (hheard : heard src addr) (h : ep.Hears src addr ep')
  | offers (k : Bool) (r : RxEntry) (hno : r.no = ep.postings) (h : ep.Offers k r ep')
  | cancel (k : Bool) (context : ℕ) (h : (ep.withdraw k context).Unmatched ep')

namespace Moves

variable {heard : SockAddr → UInt64 → Prop}

theorem postRecv (env : Env) (ep : Ep) (iov : List Iovec) (addr tag ignore : UInt64)
    (context : ℕ) (flags : UInt64) (tagged : Bool) :
    ep.Moves heard (rdsPostRecv env ep iov addr tag ignore context flags tagged).1 := by
  by_cases hcount : rdsIovLimit < iov.length
  · unfold rdsPostRecv
    rw [if_pos hcount]
    exact quiet (.refl ep)
  · exact offers tagged _ rfl
      (.postRecv env ep (not_lt.mp hcount) addr tag ignore context flags tagged)

theorem epCancel (ep : Ep) (context : ℕ) : ep.Moves heard (rdsEpCancel ep context).1 :=
  rdsEpCancel_elim (quiet (.refl ep)) (fun k _ _ => cancel k context (.of_outer (.of_eq rfl)))

theorem act (ep : Ep) (a : EpAct) : ep.Moves (ep.heard a) (ep.act a) := by
  cases a with
  | send env iov destAddr tag data context flags tagged =>
    exact quiet (.genericSend env ep iov destAddr tag data context flags tagged)
  | inject env buf len destAddr tag tagged =>
    exact quiet (.of_outer (rdsGenericInject_outer env ep buf len destAddr tag tagged))
  | postRecv env iov addr tag ignore context flags tagged =>
    exact postRecv env ep iov addr tag ignore context flags tagged
  | cancel context => exact epCancel ep context
  | rma env iov remoteFi remoteOff key isWrite context flags =>
    exact quiet (.startsRma
      (rdsRmaCommon_starts env ep iov remoteFi remoteOff key isWrite context flags))
  | injectWrite env buf len destAddr addr key =>
    exact quiet (.startsRma (rdsInjectWrite_starts env ep buf len destAddr addr key))
  | recv env src bytes => exact hears src _ ⟨rfl, rfl⟩ (.recvDgram env ep src bytes)
  | notify env op status =>
    have herase : ep.Unmatched { ep with inflight := ep.inflight.erase op } := .of_eq rfl
    exact quiet (herase.trans (.handleRdmaNotify env _ op.token status))
  | retry env => exact quiet (.progressDeferred env ep)
  | poll env addr =>
    obtain h | ⟨p, hp, h⟩ := Hears.ringPollSlot env ep addr
    · exact quiet h
    · exact hears p.sa p.addr ⟨p, hp, rfl, rfl⟩ h
  | flush env addr => exact quiet (.of_outer (rdsRingFlushCredit_outer env ep addr))
  | landSlot addr idx slot => exact quiet (.of_eq rfl)
  | landCredit addr value => exact quiet (.of_eq rfl)
  | shareDomain domain => exact quiet (.of_eq rfl)

end Moves

namespace MatchStep

theorem of_hears {src : SockAddr} {addr : UInt64} {ep ep' : Ep} (h : ep.Hears src addr ep') :
    ep.MatchStep ep' := by
  obtain h | ⟨m, -, -, hno, hsegs, hmeets⟩ := h
  · exact quiet h
  cases hmeets with
  | lost h => exact quiet h
  | taken r hfind h => exact arrive m r hno hfind h
  | queued hfind h => exact queue m hno hsegs hfind h

/-- **Every action is one of these.** -/
theorem act (ep : Ep) (a : EpAct) : ep.MatchStep (ep.act a) := by
  cases Moves.act ep a with
  | quiet h => exact quiet h
  | hears _ _ _ h => exact of_hears h
  | offers k r hno h =>
    cases h with
    | refused hfind h => exact quiet h
    | given m hfind h => exact post k m r hno hfind h
    | waits hfind h => exact enlist k r hno hfind h
  | cancel k context h => exact cancel k context h

variable {ep ep' : Ep}

/-- Whatever the step, it ends in one that matches nothing. -/
theorem unmatched (h : ep.MatchStep ep') : ∃ e : Ep, e.Unmatched ep' ∧ e.cfg = ep.cfg
    ∧ e.idsGiven = ep.idsGiven := by
  cases h with
  | quiet h | arrive _ _ _ _ h | queue _ _ _ _ h | post _ _ _ _ _ h | enlist _ _ _ _ h
  | cancel _ _ h => exact ⟨_, h, rfl, rfl⟩

theorem cfg (h : ep.MatchStep ep') : ep'.cfg = ep.cfg := by
  obtain ⟨e, h, hcfg, -⟩ := h.unmatched
  exact h.cfg.trans hcfg

theorem idsGiven_le (h : ep.MatchStep ep') : ep.idsGiven ≤ ep'.idsGiven := by
  obtain ⟨e, h, -, hids⟩ := h.unmatched
  exact hids ▸ h.idsGiven

end MatchStep

/-- A run does not change how the endpoint was configured. -/
theorem cfg_after {cfg : EpCfg} {domain : Domain} {acts : List EpAct}
    (hrun : Runs cfg domain acts) : (after cfg domain acts).cfg = cfg := by
  refine @Along.invariant Ep EpAct Ep.act Ep.Admits (fun ep => ep.cfg = cfg) ?_ _ rfl acts hrun
  intro ep a hep _
  exact (MatchStep.act ep a).cfg.trans hep

end Ep

/-! ## The invariant -/

/-- Does a receive take a message of its kind? -/
def RxEntry.takes (r : RxEntry) (m : Unexp) : Bool :=
  rdsMatches m.hdr.tagged r m.addr m.hdr.tag

namespace Ep

/-- **The matching invariant.** No posted receive takes an unexpected message of
its kind; both lists stand in the order of posting and of arrival; and no message
that was passed over by an earlier pairing could have been taken in it. -/
structure MatchInv (ep : Ep) : Prop where
  kind : ∀ k, ∀ m ∈ ep.unexp k, m.hdr.tagged = k
  complete : ∀ k, ∀ r ∈ ep.posted k, ∀ m ∈ ep.unexp k, r.takes m = false
  postedSorted : ∀ k, (ep.posted k).Pairwise (fun r r' => r.no < r'.no)
  postedOld : ∀ k, ∀ r ∈ ep.posted k, r.no < ep.postings
  unexpSorted : ∀ k, (ep.unexp k).Pairwise (fun m m' => m.no < m'.no)
  unexpOld : ∀ k, ∀ m ∈ ep.unexp k, m.no < ep.arrivals
  pairedOld : ∀ x ∈ ep.pairings, x.1.no < ep.arrivals
  passed : ∀ x ∈ ep.pairings, ∀ m ∈ ep.unexp x.1.hdr.tagged, m.no < x.1.no →
    x.2.takes m = false
  ordered : ep.pairings.Pairwise (fun x y => y.1.hdr.tagged = x.1.hdr.tagged →
    y.1.no < x.1.no → x.2.takes y.1 = false)

/-- The pairings a step makes respect both orders: every one is of a receive that
takes the message, no earlier message still unexpected is taken by the receive,
and no earlier receive still posted takes the message. -/
def PairsInOrder (ep ep' : Ep) : Prop :=
  ∃ new, ep'.pairings = ep.pairings ++ new ∧ ∀ x ∈ new, x.2.takes x.1 = true
    ∧ (∀ m ∈ ep.unexp x.1.hdr.tagged, m.no < x.1.no → x.2.takes m = false)
    ∧ ∀ r ∈ ep.posted x.1.hdr.tagged, r.no < x.2.no → r.takes x.1 = false

/-- Shrinking one of two lists. -/
theorem update_sublist {α : Type} (f : Bool → List α) {k : Bool} {l : List α}
    (h : l.Sublist (f k)) (j : Bool) : (Function.update f k l j).Sublist (f j) := by
  by_cases hj : j = k
  · rw [hj, Function.update_self]
    exact h
  · rw [Function.update_of_ne hj]

/-- Extending one of two lists. -/
theorem mem_update_append {α : Type} {f : Bool → List α} {k j : Bool} {a b : α}
    (h : b ∈ Function.update f k (f k ++ [a]) j) : b ∈ f j ∨ (j = k ∧ b = a) := by
  by_cases hj : j = k
  · rw [hj, Function.update_self] at h
    rcases List.mem_append.mp h with h | h
    · exact .inl (hj ▸ h)
    · exact .inr ⟨hj, List.mem_singleton.mp h⟩
  · rw [Function.update_of_ne hj] at h
    exact .inl h

/-- An extended list stays numbered in order. -/
theorem update_append_sorted {α : Type} {f : Bool → List α} {no : α → ℕ} {k : Bool} {a : α}
    (hf : ∀ j, (f j).Pairwise (fun x y => no x < no y)) (ha : ∀ x ∈ f k, no x < no a) (j : Bool) :
    (Function.update f k (f k ++ [a]) j).Pairwise (fun x y => no x < no y) := by
  by_cases hj : j = k
  · rw [hj, Function.update_self]
    refine List.pairwise_append.mpr ⟨hf k, List.pairwise_singleton _ _, fun x hx y hy => ?_⟩
    rw [List.mem_singleton.mp hy]
    exact ha x hx
  · rw [Function.update_of_ne hj]
    exact hf j

/-- A request names fewer segments than its count field can say, so what is
unexpected does. -/
theorem MatchStep.segs {ep ep' : Ep} (h : ep.MatchStep ep')
    (hep : ∀ k, ∀ m ∈ ep.unexp k, m.segs.length < 2 ^ 16) :
    ∀ k, ∀ m ∈ ep'.unexp k, m.segs.length < 2 ^ 16 := by
  intro k m hm
  cases h with
  | quiet h | arrive _ _ _ _ h | enlist _ _ _ _ h | cancel _ _ h =>
    exact hep k m (h.unexp ▸ hm)
  | queue m' hno hsegs hfind h =>
    rcases mem_update_append (h.unexp ▸ hm) with hm | ⟨-, rfl⟩
    · exact hep k m hm
    · exact hsegs
  | post k' m' r hno hfind h =>
    exact hep k m ((update_sublist ep.unexp List.eraseP_sublist k).subset (h.unexp ▸ hm))

namespace MatchInv

theorem init (cfg : EpCfg) (domain : Domain) : (Ep.init cfg domain).MatchInv where
  kind _ _ h := absurd h List.not_mem_nil
  complete _ _ h := absurd h List.not_mem_nil
  postedSorted _ := List.Pairwise.nil
  postedOld _ _ h := absurd h List.not_mem_nil
  unexpSorted _ := List.Pairwise.nil
  unexpOld _ _ h := absurd h List.not_mem_nil
  pairedOld _ h := absurd h List.not_mem_nil
  passed _ h := absurd h List.not_mem_nil
  ordered := List.Pairwise.nil

variable {ep ep' : Ep}

theorem unmatched (hinv : ep.MatchInv) (h : ep.Unmatched ep') : ep'.MatchInv where
  kind := h.unexp ▸ hinv.kind
  complete := by
    rw [h.posted, h.unexp]
    exact hinv.complete
  postedSorted := h.posted ▸ hinv.postedSorted
  postedOld := fun k r hr => (hinv.postedOld k r (h.posted ▸ hr)).trans_le h.postings
  unexpSorted := h.unexp ▸ hinv.unexpSorted
  unexpOld := fun k m hm => (hinv.unexpOld k m (h.unexp ▸ hm)).trans_le h.arrivals
  pairedOld := fun x hx => (hinv.pairedOld x (h.pairings ▸ hx)).trans_le h.arrivals
  passed := by
    rw [h.pairings, h.unexp]
    exact hinv.passed
  ordered := h.pairings ▸ hinv.ordered

/-- Receives may be withdrawn. -/
theorem withdraw (hinv : ep.MatchInv) {posted : Bool → List RxEntry}
    (hsub : ∀ k, (posted k).Sublist (ep.posted k)) :
    ({ ep with posted := posted } : Ep).MatchInv where
  kind := hinv.kind
  complete := fun k r hr => hinv.complete k r ((hsub k).subset hr)
  postedSorted := fun k => (hinv.postedSorted k).sublist (hsub k)
  postedOld := fun k r hr => hinv.postedOld k r ((hsub k).subset hr)
  unexpSorted := hinv.unexpSorted
  unexpOld := hinv.unexpOld
  pairedOld := hinv.pairedOld
  passed := hinv.passed
  ordered := hinv.ordered

/-- A pairing of a message already counted is recorded, if the messages passed
over – now and by earlier pairings – could not have been taken. -/
theorem pair (hinv : ep.MatchInv) {m : Unexp} {r : RxEntry} (hm : m.no < ep.arrivals)
    (hpassed : ∀ m' ∈ ep.unexp m.hdr.tagged, m'.no < m.no → r.takes m' = false)
    (hordered : ∀ x ∈ ep.pairings, m.hdr.tagged = x.1.hdr.tagged → m.no < x.1.no →
      x.2.takes m = false) :
    (ep.log (.paired m r)).MatchInv := by
  have hpairs : (ep.log (.paired m r)).pairings = ep.pairings ++ [(m, r)] :=
    pairings_of_paired rfl
  refine ⟨hinv.kind, hinv.complete, hinv.postedSorted, hinv.postedOld, hinv.unexpSorted,
    hinv.unexpOld, ?_, ?_, ?_⟩
  · rw [hpairs]
    intro x hx
    rcases List.mem_append.mp hx with hx | hx
    · exact hinv.pairedOld x hx
    · rw [List.mem_singleton.mp hx]
      exact hm
  · rw [hpairs]
    intro x hx
    rcases List.mem_append.mp hx with hx | hx
    · exact hinv.passed x hx
    · rw [List.mem_singleton.mp hx]
      exact hpassed
  · rw [hpairs]
    refine List.pairwise_append.mpr ⟨hinv.ordered, List.pairwise_singleton _ _, ?_⟩
    intro x hx y hy
    rw [List.mem_singleton.mp hy]
    exact hordered x hx

/-- A message that arrives is given to the first receive that takes it. -/
theorem takePosted (hinv : ep.MatchInv) {m : Unexp} {r : RxEntry} (hno : m.no = ep.arrivals)
    (hfind : (ep.posted m.hdr.tagged).find?
      (fun rx => rdsMatches m.hdr.tagged rx m.addr m.hdr.tag) = some r) :
    (ep.takePosted m r).MatchInv := by
  have hcount : ep.Unmatched { ep with arrivals := ep.arrivals + 1 } :=
    ⟨rfl, rfl, rfl, le_rfl, Nat.le_succ _, le_rfl, rfl⟩
  have hless : ({ ep with
      arrivals := ep.arrivals + 1
      posted := Function.update ep.posted m.hdr.tagged ((ep.posted m.hdr.tagged).eraseP
        (fun rx => rdsMatches m.hdr.tagged rx m.addr m.hdr.tag)) } : Ep).MatchInv :=
    (hinv.unmatched hcount).withdraw (update_sublist ep.posted List.eraseP_sublist)
  refine hless.pair (by rw [hno]; exact Nat.lt_succ_self _) (fun m' hm' _ => ?_)
    (fun x hx _ hlt => ?_)
  · -- the receive was posted, so it takes none of the unexpected messages
    exact hinv.complete _ r (List.mem_of_find?_eq_some hfind) m' hm'
  · -- the message is the last to have arrived
    have hold := hinv.pairedOld x hx
    omega

/-- A message that arrives and that no receive takes becomes unexpected. -/
theorem queueArrival (hinv : ep.MatchInv) {m : Unexp} (hno : m.no = ep.arrivals)
    (hfind : (ep.posted m.hdr.tagged).find?
      (fun rx => rdsMatches m.hdr.tagged rx m.addr m.hdr.tag) = none) :
    (ep.queueArrival m).MatchInv where
  kind := by
    intro k m' hm'
    rcases mem_update_append hm' with hm' | ⟨rfl, rfl⟩
    · exact hinv.kind k m' hm'
    · rfl
  complete := by
    intro k r hr m' hm'
    rcases mem_update_append hm' with hm' | ⟨rfl, rfl⟩
    · exact hinv.complete k r hr m' hm'
    · have hnot := List.find?_eq_none.mp hfind r hr
      exact Bool.not_eq_true _ ▸ hnot
  postedSorted := hinv.postedSorted
  postedOld := hinv.postedOld
  unexpSorted := update_append_sorted hinv.unexpSorted (fun m' hm' => by
    rw [hno]
    exact hinv.unexpOld _ m' hm')
  unexpOld := by
    intro k m' hm'
    rcases mem_update_append hm' with hm' | ⟨rfl, rfl⟩
    · exact Nat.lt_succ_of_lt (hinv.unexpOld k m' hm')
    · rw [hno]
      exact Nat.lt_succ_self _
  pairedOld := fun x hx => Nat.lt_succ_of_lt (hinv.pairedOld x hx)
  passed := by
    intro x hx m' hm' hlt
    rcases mem_update_append hm' with hm' | ⟨-, rfl⟩
    · exact hinv.passed x hx m' hm' hlt
    · have hold := hinv.pairedOld x hx
      omega
  ordered := hinv.ordered

/-- A receive that is posted is given the first message it takes. -/
theorem takeUnexp (hinv : ep.MatchInv) {k : Bool} {m : Unexp} {r : RxEntry}
    (hfind : (ep.unexp k).find? (fun ux => rdsMatches k r ux.addr ux.hdr.tag) = some m) :
    (ep.takeUnexp k m r).MatchInv := by
  have hmem := List.mem_of_find?_eq_some hfind
  have hkind := hinv.kind k m hmem
  have hsub := update_sublist ep.unexp
    (List.eraseP_sublist (p := fun ux : Unexp => rdsMatches k r ux.addr ux.hdr.tag)
      (l := ep.unexp k))
  have hless : ({ ep with
      postings := ep.postings + 1
      unexp := Function.update ep.unexp k ((ep.unexp k).eraseP
        (fun ux => rdsMatches k r ux.addr ux.hdr.tag)) } : Ep).MatchInv :=
    { kind := fun j m' hm' => hinv.kind j m' ((hsub j).subset hm')
      complete := fun j r' hr' m' hm' => hinv.complete j r' hr' m' ((hsub j).subset hm')
      postedSorted := hinv.postedSorted
      postedOld := fun j r' hr' => Nat.lt_succ_of_lt (hinv.postedOld j r' hr')
      unexpSorted := fun j => (hinv.unexpSorted j).sublist (hsub j)
      unexpOld := fun j m' hm' => hinv.unexpOld j m' ((hsub j).subset hm')
      pairedOld := hinv.pairedOld
      passed := fun x hx m' hm' => hinv.passed x hx m' ((hsub _).subset hm')
      ordered := hinv.ordered }
  refine hless.pair (hinv.unexpOld k m hmem) (fun m' hm' hlt => ?_) (fun x hx hx' hlt => ?_)
  · -- the search takes messages in the order of their arrival
    have hm' : m' ∈ ep.unexp k := hkind ▸ (hsub _).subset hm'
    have hfirst := List.find?_lowest hfind (hinv.unexpSorted k) hm' hlt
    rw [← hinv.kind k m' hm'] at hfirst
    exact hfirst
  · exact hinv.passed x hx m (hx' ▸ hkind.symm ▸ hmem) hlt

/-- A receive that is posted and takes no message waits. -/
theorem queuePosting (hinv : ep.MatchInv) {k : Bool} {r : RxEntry} (hno : r.no = ep.postings)
    (hfind : (ep.unexp k).find? (fun ux => rdsMatches k r ux.addr ux.hdr.tag) = none) :
    (ep.queuePosting k r).MatchInv where
  kind := hinv.kind
  complete := by
    intro j r' hr' m hm
    rcases mem_update_append hr' with hr' | ⟨rfl, rfl⟩
    · exact hinv.complete j r' hr' m hm
    · have hnot := List.find?_eq_none.mp hfind m hm
      rw [← hinv.kind _ m hm] at hnot
      exact Bool.not_eq_true _ ▸ hnot
  postedSorted := update_append_sorted hinv.postedSorted (fun r' hr' => by
    rw [hno]
    exact hinv.postedOld _ r' hr')
  postedOld := by
    intro j r' hr'
    rcases mem_update_append hr' with hr' | ⟨rfl, rfl⟩
    · exact Nat.lt_succ_of_lt (hinv.postedOld j r' hr')
    · rw [hno]
      exact Nat.lt_succ_self _
  unexpSorted := hinv.unexpSorted
  unexpOld := hinv.unexpOld
  pairedOld := hinv.pairedOld
  passed := hinv.passed
  ordered := hinv.ordered

/-- **One step keeps the invariant.** -/
theorem step (hinv : ep.MatchInv) (h : ep.MatchStep ep') : ep'.MatchInv := by
  cases h with
  | quiet h => exact hinv.unmatched h
  | arrive m r hno hfind h => exact (hinv.takePosted hno hfind).unmatched h
  | queue m hno _ hfind h => exact (hinv.queueArrival hno hfind).unmatched h
  | post k m r hno hfind h => exact (hinv.takeUnexp hfind).unmatched h
  | enlist k r hno hfind h => exact (hinv.queuePosting hno hfind).unmatched h
  | cancel k context h =>
    exact (hinv.withdraw (update_sublist ep.posted List.eraseP_sublist)).unmatched h

/-- **Every run keeps it.** -/
theorem after (cfg : EpCfg) (domain : Domain) (acts : List EpAct) :
    (Ep.after cfg domain acts).MatchInv := by
  refine List.foldlRecOn acts Ep.act (init cfg domain) (fun ep hinv a _ => ?_)
  exact hinv.step (MatchStep.act ep a)

/-- **One step pairs in order.** -/
theorem pairsInOrder (hinv : ep.MatchInv) (h : ep.MatchStep ep') : ep.PairsInOrder ep' := by
  have hnone : ∀ {e : Ep}, e.Unmatched ep' → e.pairings = ep.pairings → ep.PairsInOrder ep' :=
    fun h he => ⟨[], by rw [h.pairings, he, List.append_nil], by simp⟩
  cases h with
  | quiet h => exact hnone h rfl
  | queue m hno hsegs hfind h => exact hnone h rfl
  | enlist k r hno hfind h => exact hnone h rfl
  | cancel k context h => exact hnone h rfl
  | arrive m r hno hfind h =>
    have htakes : r.takes m = true := (List.find?_eq_some_iff_append.mp hfind).1
    refine ⟨[(m, r)], h.pairings.trans (pairings_of_paired rfl), fun x hx => ?_⟩
    rw [List.mem_singleton.mp hx]
    refine ⟨htakes, fun m' hm' _ => ?_, fun r' hr' hlt => ?_⟩
    · exact hinv.complete _ r (List.mem_of_find?_eq_some hfind) m' hm'
    · exact List.find?_lowest hfind (hinv.postedSorted _) hr' hlt
  | post k m r hno hfind h =>
    have hmem := List.mem_of_find?_eq_some hfind
    have hkind := hinv.kind k m hmem
    refine ⟨[(m, r)], h.pairings.trans (pairings_of_paired rfl), fun x hx => ?_⟩
    rw [List.mem_singleton.mp hx]
    dsimp only
    refine ⟨?_, fun m' hm' hlt => ?_, fun r' hr' _ => ?_⟩
    · rw [RxEntry.takes, hkind]
      exact (List.find?_eq_some_iff_append.mp hfind).1
    · rw [hkind] at hm'
      rw [RxEntry.takes, hinv.kind k m' hm']
      exact List.find?_lowest hfind (hinv.unexpSorted k) hm' hlt
    · rw [hkind] at hr'
      exact hinv.complete k r' hr' m hmem

end MatchInv

/-- **Matching is complete and non-overtaking.** After any run no posted receive
takes an unexpected message of its kind; the next action, whatever it is, pairs in
order; and among all pairings made, one that consumed a later message before an
earlier one of its kind was of a receive that does not take the earlier. -/
theorem matching_complete_and_in_order (cfg : EpCfg) (domain : Domain) (acts : List EpAct) :
    (∀ k, ∀ r ∈ (after cfg domain acts).posted k, ∀ m ∈ (after cfg domain acts).unexp k,
        rdsMatches k r m.addr m.hdr.tag = false)
      ∧ (∀ a, (after cfg domain acts).PairsInOrder ((after cfg domain acts).act a))
      ∧ (after cfg domain acts).pairings.Pairwise (fun x y =>
          y.1.hdr.tagged = x.1.hdr.tagged → y.1.no < x.1.no →
            rdsMatches x.1.hdr.tagged x.2 y.1.addr y.1.hdr.tag = false) := by
  have hinv := MatchInv.after cfg domain acts
  refine ⟨fun k r hr m hm => ?_, fun a => hinv.pairsInOrder (MatchStep.act _ a), ?_⟩
  · have hno := hinv.complete k r hr m hm
    rw [RxEntry.takes, hinv.kind k m hm] at hno
    exact hno
  · refine hinv.ordered.imp (fun {x y} h hkind hlt => ?_)
    rw [← hkind]
    exact h hkind hlt

end Ep
