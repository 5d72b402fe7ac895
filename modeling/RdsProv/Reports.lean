import RdsProv.Finalized
import RdsProv.Transfer

/-!
# Failures that are reported

An operation that was accepted lives in the list of pending operations until it is
retired: a one-sided operation by the notification of its last part, a rendezvous send
by its `FIN`, a rendezvous receive by the notification or the retry of its last read.
Whatever failed on the way is in its `error`, and it is here that the application is
told, or not.

There are two routines that retire. `rds_rndzv_rx_finalize` writes an entry unless the
completion was suppressed *and* there is no error; `rds_pending_complete` writes none
if the completion was suppressed. So a failure of a receive is always reported, and one
of the transmit side only if its completion was asked for; of an inject write, never.
-/

/-! ## Operations that start -/

/-- **The pending operations stay as they are**, and what is new among them is no one-sided
transfer, or has a part in flight. -/
def Ep.Links (ep ep' : Ep) : Prop :=
  ∃ l, ep'.pending = ep.pending ++ l ∧ ∀ p ∈ l, p.type = .rma → p.segRemaining ≠ 0

namespace Ep.Links

variable {ep e : Ep}

theorem of_eq (h : e.pending = ep.pending) : ep.Links e :=
  ⟨[], h.trans (List.append_nil _).symm, fun _ hp => absurd hp List.not_mem_nil⟩

/-- One operation is linked. -/
theorem of_append {p : Pending} (h : e.pending = ep.pending ++ [p])
    (hp : p.type = .rma → p.segRemaining ≠ 0) : ep.Links e :=
  ⟨[p], h, fun _ hq => List.mem_singleton.mp hq ▸ hp⟩

/-- The step starts from an endpoint with the same operations. -/
theorem start {e' : Ep} (h : e.Links e') (he : e.pending = ep.pending) : ep.Links e' := by
  obtain ⟨l, hl, hp⟩ := h
  exact ⟨l, he ▸ hl, hp⟩

theorem outer (h : ep.Outer e) : ep.Links e := of_eq h.pending

theorem startRndzvRead (env : Env) (ep : Ep) (rx : RxEntry) (hdr : Hdr) (segs : List Seg)
    (peer : SockAddr) (src : UInt64) :
    ep.Links (rdsStartRndzvRead env ep rx hdr segs peer src) := by
  refine rdsStartRndzvRead_elim (fun _ => ?_) (fun _ e q hreads => ?_)
  · refine of_eq ((rdsCqWriteRx_outer _ _ _ _ _ _ _ _).pending.trans ?_)
    exact (Ep.Reports.sendFin env _ peer hdr.id).pending
  obtain ⟨hissue, hadvances⟩ := Ep.Reports.foldl_issueRead env peer hdr.id
    (rndzvReads rx.iov (min hdr.size.toNat rx.totalLen) 0 segs)
    (ep.rxOpened rx hdr, ep.rxOperation rx hdr peer src)
  rw [hreads] at hissue hadvances
  split
  · exact of_eq ((Ep.Reports.finalize env e q).pending.trans hissue.pending)
  · refine of_append (p := q) (congrArg (· ++ [q]) hissue.pending) (fun hrma => ?_)
    have htype : q.type = .rndzvRx := congrArg Pending.type hadvances.eq
    cases htype.symm.trans hrma

theorem deliver (env : Env) (ep : Ep) (rx : RxEntry) (m : Unexp) :
    ep.Links (rdsDeliver env ep rx m) :=
  rdsDeliver_elim (fun _ => of_eq rfl) (fun _ => (startRndzvRead env _ _ _ _ _ _).start rfl)

theorem handleMessage (env : Env) (ep : Ep) (m : Unexp) :
    ep.Links (rdsHandleMessage env ep m) := by
  exact rdsHandleMessage_elim (fun rx _ => (deliver env _ rx m).start rfl) (fun _ t => of_eq rfl)
    (fun _ _ t => of_eq (Ep.Reports.sendFin env _ m.src m.hdr.id).pending) (fun _ t => of_eq rfl)

theorem postRecv (env : Env) (ep : Ep) (iov : List Iovec) (addr tag ignore : UInt64)
    (context : ℕ) (flags : UInt64) (tagged : Bool) :
    ep.Links (rdsPostRecv env ep iov addr tag ignore context flags tagged).1 := by
  exact rdsPostRecv_elim (fun _ => of_eq rfl) (fun rx _ ux _ => (deliver env _ rx ux).start rfl)
    (fun _ _ _ _ => of_eq rfl) (fun rx _ _ => of_eq rfl)

theorem cancel (ep : Ep) (context : ℕ) : ep.Links (rdsEpCancel ep context).1 :=
  rdsEpCancel_elim (of_eq rfl) (fun _ _ _ => of_eq rfl)

theorem genericSend (env : Env) (ep : Ep) (iov : List Iovec) (destAddr tag data : UInt64)
    (context : ℕ) (flags : UInt64) (tagged : Bool) :
    ep.Links (rdsGenericSend env ep iov destAddr tag data context flags tagged).1 := by
  obtain ⟨r, hr⟩ : ∃ r, rdsGenericSend env ep iov destAddr tag data context flags tagged = r :=
    ⟨_, rfl⟩
  rw [hr]
  obtain h | ⟨-, h⟩ | ⟨-, dest, genComp, segs, mrs, cached, -, -, -, h⟩ :=
    rdsGenericSend_cases env ep iov destAddr tag data context flags tagged hr
  · exact outer h
  · exact of_eq h.pending
  · obtain ⟨e, t, hout, h⟩ | ⟨-, e, ⟨writes, w, idx, slot, hout, -⟩, h⟩ := h
    · rw [h]
      exact of_append (congrArg (· ++ _) hout.pending) (fun hrma => by cases hrma)
    · rw [h]
      exact of_append (congrArg (· ++ _) hout.pending) (fun hrma => by cases hrma)

theorem startsRma (h : ep.StartsRma e) : ep.Links e := by
  cases h with
  | refused t => exact of_eq rfl
  | issued t ops => exact of_eq rfl
  | pending t ops p _ _ _ hparts => exact of_append rfl (fun _ => hparts)

end Ep.Links

/-! ## Operations that stay -/

/-- Every pending operation is still pending. -/
def Ep.Keeps (ep ep' : Ep) : Prop := ∀ p ∈ ep.pending, ∃ q ∈ ep'.pending, q.id = p.id

namespace Ep.Keeps

variable {ep ep' : Ep}

theorem links (h : ep.Links ep') : ep.Keeps ep' := by
  obtain ⟨l, hl, -⟩ := h
  exact fun p hp => ⟨p, by rw [hl]; exact List.mem_append_left _ hp, rfl⟩

theorem of_eq (h : ep'.pending = ep.pending) : ep.Keeps ep' := links (.of_eq h)

theorem trans {e₁ e₂ e₃ : Ep} (h : e₁.Keeps e₂) (h' : e₂.Keeps e₃) : e₁.Keeps e₃ := by
  intro p hp
  obtain ⟨q, hq, hqid⟩ := h p hp
  obtain ⟨r, hr, hrid⟩ := h' q hq
  exact ⟨r, hr, hrid.trans hqid⟩

/-- The step starts from an endpoint with the same operations. -/
theorem start {e : Ep} (h : e.Keeps ep') (he : e.pending = ep.pending) : ep.Keeps ep' := by
  intro p hp
  rw [← he] at hp
  exact h p hp

/-- An operation is written back. -/
theorem storePending (ep : Ep) (q : Pending) : ep.Keeps (ep.storePending q) := by
  intro p hp
  show ∃ r ∈ ep.pending.modifyFirst (·.id == q.id) (fun _ => q), r.id = p.id
  cases hfind : ep.pending.find? (·.id == q.id) with
  | none =>
    rw [List.modifyFirst_of_none hfind]
    exact ⟨p, hp, rfl⟩
  | some a =>
    obtain ⟨l₁, l₂, hl, -, ha, -, hmod⟩ := List.find?_split hfind
    rw [hmod]
    rw [hl, List.mem_append, List.mem_cons] at hp
    obtain hp | rfl | hp := hp
    · exact ⟨p, by simp [hp], rfl⟩
    · exact ⟨q, by simp, by simpa using (beq_iff_eq.mp ha).symm⟩
    · exact ⟨p, by simp [hp], rfl⟩

end Ep.Keeps

/-! ## Operations that end -/

/-- The completion queue of an operation. -/
def Pending.cqOf (p : Pending) (ep : Ep) : List CqEntry :=
  if p.type = .rndzvRx then ep.rxCq else ep.txCq

/-- An error with the operation's context was written to its queue. -/
def Pending.Told (p : Pending) (ep ep' : Ep) : Prop :=
  ∃ c ∈ (p.cqOf ep').drop (p.cqOf ep).length, c.context = p.context ∧ c.err ≠ 0

/-- The failure of an operation is reported: that of a receive, or one whose completion
is. -/
def Pending.Reports (p : Pending) : Prop := p.type = .rndzvRx ∨ p.noComp = false

/-- **An operation ends** as it is then: it is unlinked, and its error is told if it
reports. -/
structure Ep.Ends (ep : Ep) (q : Pending) (ep' : Ep) : Prop where
  pending : ep'.pending = ep.pending.eraseP (·.id == q.id)
  told : ep.cfg.hasTxCq = true → ep.cfg.hasRxCq = true →
    (q.Told ep ep' ↔ q.error ≠ 0 ∧ q.Reports)

namespace Ep.Ends

variable {ep : Ep}

/-- A transmit operation is completed. -/
theorem complete {q : Pending} (htype : q.type ≠ .rndzvRx) :
    ep.Ends q (rdsPendingComplete ep q) where
  pending := by rw [rdsPendingComplete_eq]
  told hcq _ := by
    have htx : q.type = .rndzvTx ∨ q.type = .rma := by
      cases hq : q.type with
      | rndzvRx => exact absurd hq htype
      | rndzvTx => exact .inl rfl
      | rma => exact .inr rfl
    unfold Pending.Told Pending.Reports Pending.cqOf
    rw [if_neg htype, if_neg htype, txCq_rdsPendingComplete, List.drop_left, txEntries, if_pos hcq]
    cases hcomp : q.noComp with
    | true => simp [htype]
    | false => simp [htx]

/-- A receive is finalized. -/
theorem finalize (env : Env) {q : Pending} (htype : q.type = .rndzvRx) :
    ep.Ends q ((rdsRndzvRxFinalize env ep q).unlinkPending q.id) where
  pending := congrArg (List.eraseP (fun p : Pending => p.id == q.id))
    (Ep.Reports.finalize env ep q).pending
  told _ hcq := by
    unfold Pending.Told Pending.Reports Pending.cqOf
    rw [if_pos htype, if_pos htype]
    have hrxCq : ((rdsRndzvRxFinalize env ep q).unlinkPending q.id).rxCq
        = ep.rxCq ++ q.entries ep.cfg := (Ep.Reports.finalize env ep q).rxCq
    rw [hrxCq, List.drop_left, Pending.entries, rxEntries, if_pos hcq]
    by_cases herror : q.error = 0
    · simp [herror]
    · simp [herror, htype]

/-- Only what ends is gone. -/
theorem eq_of_gone {p q : Pending} {ep' : Ep} (h : ep.Ends q ep')
    (hdistinct : (ep.pending.map Pending.id).Nodup) (hp : p ∈ ep.pending)
    (hgone : ∀ r ∈ ep'.pending, r.id ≠ p.id) {p₀ : Pending}
    (hfind : rdsPendingFind ep q.id = some p₀) : p = p₀ := by
  obtain ⟨l₁, l₂, hl, -, -, -, herase, -⟩ := List.find?_key_split hdistinct hfind
  rw [h.pending, herase] at hgone
  rw [hl, List.mem_append, List.mem_cons] at hp
  obtain hp | hp | hp := hp
  · exact absurd rfl (hgone p (List.mem_append_left _ hp))
  · exact hp
  · exact absurd rfl (hgone p (List.mem_append_right _ hp))

end Ep.Ends

/-- What arrives ends a rendezvous send, or nothing. -/
theorem rdsHandleInbound_ends (env : Env) (ep : Ep) (hdr : Hdr) (payload : List UInt8)
    (src : SockAddr) (srcFi : UInt64) :
    ep.Keeps (rdsHandleInbound env ep hdr payload src srcFi)
      ∨ ∃ p, rdsPendingFind ep p.id = some p
        ∧ ep.Ends p (rdsHandleInbound env ep hdr payload src srcFi) := by
  exact rdsHandleInbound_elim (.inl (.of_eq rfl))
    (fun p hfind htype => .inr ⟨p, hfind, .complete (by rw [htype]; decide)⟩)
    (fun _ _ => .inl (.links (.outer (rdsRingHandleCtrl_outer env ep hdr payload srcFi))))
    (fun _ _ => .inl (.links (.handleMessage env ep _)))

/-- Nothing of the pending operations or the completion queues is different. -/
def Ep.SameBooks (ep ep' : Ep) : Prop :=
  ep'.cfg = ep.cfg ∧ ep'.pending = ep.pending ∧ ep'.txCq = ep.txCq ∧ ep'.rxCq = ep.rxCq

/-- What comes before and after a step that ends an operation. -/
theorem Ep.Ends.within {e₁ e₂ e₃ e₄ : Ep} {q : Pending} (h : e₂.Ends q e₃) (hpre : e₁.SameBooks e₂)
    (hpost : e₃.SameBooks e₄) : e₁.Ends q e₄ := by
  obtain ⟨hcfg, hpending, htx, hrx⟩ := hpre
  obtain ⟨-, hpending', htx', hrx'⟩ := hpost
  refine ⟨by rw [hpending', h.pending, hpending], fun hcq hcq' => ?_⟩
  have htold := h.told (by rw [hcfg]; exact hcq) (by rw [hcfg]; exact hcq')
  rw [← htold]
  unfold Pending.Told Pending.cqOf
  rw [htx', hrx', htx, hrx]

theorem rdsRingReturnCredit_sameBooks (env : Env) (ep : Ep) (p : Peer) :
    ep.SameBooks (rdsRingReturnCredit env ep p) := by
  obtain ⟨-, h⟩ | ⟨-, h⟩ := rdsRingReturnCredit_cases env ep p
  · rw [h]
    exact ⟨rfl, rfl, rfl, rfl⟩
  · rw [h]
    exact ⟨rfl, rfl, rfl, rfl⟩

/-- So does what is polled from a ring. -/
theorem rdsRingPollSlot_ends (env : Env) (ep : Ep) (addr : UInt64) :
    ep.Keeps ((rdsRingPollSlot env ep addr).getD ep)
      ∨ ∃ p, rdsPendingFind ep p.id = some p
        ∧ ep.Ends p ((rdsRingPollSlot env ep addr).getD ep) := by
  obtain ⟨hnone, -⟩ | ⟨p, slot, e, -, -, he, hlast⟩ := rdsRingPollSlot_cases env ep addr
  · rw [hnone]
    exact .inl (.of_eq rfl)
  rw [he]
  have hset (e : Ep) (q : Peer) : e.SameBooks (e.setPeer q) := ⟨rfl, rfl, rfl, rfl⟩
  have hpost : (rdsRingDeliver env (ep.setPeer (p.absorbAck slot.ack)) p.sa p.addr
      slot).SameBooks e := by
    obtain rfl | ⟨q, -, rfl | rfl⟩ := hlast
    · exact ⟨rfl, rfl, rfl, rfl⟩
    · exact hset _ _
    · obtain ⟨hcfg, hpending, htx, hrx⟩ := rdsRingReturnCredit_sameBooks env
        ((rdsRingDeliver env (ep.setPeer (p.absorbAck slot.ack)) p.sa p.addr slot).setPeer
          { q with rxHead := q.rxHead + 1 }) { q with rxHead := q.rxHead + 1 }
      exact ⟨hcfg, hpending, htx, hrx⟩
  -- the slot is delivered as if it had come by the socket
  have hdeliver : ∀ e : Ep, e.Keeps (rdsRingDeliver env e p.sa p.addr slot)
      ∨ ∃ q, rdsPendingFind e q.id = some q ∧ e.Ends q (rdsRingDeliver env e p.sa p.addr slot) :=
    fun e => rdsRingDeliver_elim (.inl (.of_eq rfl))
      (fun hdr payload => rdsHandleInbound_ends env e hdr payload _ _)
  obtain hkeeps | ⟨q, hfind, hends⟩ := hdeliver (ep.setPeer (p.absorbAck slot.ack))
  · exact .inl ((hkeeps.start rfl).trans (.of_eq hpost.2.1))
  · exact .inr ⟨q, hfind, hends.within (hset ep _) hpost⟩

/-- **A notification ends the operation it belongs to, or nothing**, with the status
recorded. -/
theorem rdsHandleRdmaNotify_ends (env : Env) (ep : Ep) (token : UInt64) (status : ℤ) :
    ep.Keeps (rdsHandleRdmaNotify env ep token status)
      ∨ ∃ p q, rdsPendingFind ep p.id = some p
        ∧ q = { p with error := (p.heed status).error, segRemaining := p.segRemaining - 1 }
        ∧ ep.Ends q (rdsHandleRdmaNotify env ep token status) := by
  have hpre (p : Pending) : ep.SameBooks { ep with trace := ep.trace ++ p.acks status } :=
    ⟨rfl, rfl, rfl, rfl⟩
  refine rdsHandleRdmaNotify_elim (.inl (.of_eq rfl)) (fun p n _ _ => ?_) (fun p hfind htype => ?_)
    (fun p hfind htype => ?_)
  · exact .inl ((Ep.Keeps.storePending _ _).start rfl)
  · refine .inr ⟨p, _, hfind, rfl, .within (.complete ?_) (hpre p) ⟨rfl, rfl, rfl, rfl⟩⟩
    dsimp only
    rw [htype]
    decide
  · exact .inr ⟨p, _, hfind, rfl, .within (.finalize env htype) (hpre p) ⟨rfl, rfl, rfl, rfl⟩⟩

/-! ## Retirement -/

namespace Ep

/-- An action retires an operation. -/
def Retires (ep : Ep) (a : EpAct) (p : Pending) : Prop :=
  p ∈ ep.pending ∧ ∀ q ∈ (ep.act a).pending, q.id ≠ p.id

/-- The error an operation has when an action retires it: a notification first records
its status, and a walk of the deferred queue what was answered to its reads. -/
def lastError (ep : Ep) (a : EpAct) (p : Pending) : ℕ :=
  match a with
  | .notify _ _ status => (p.heed status).error
  | .retry env => (p.settle (ep.visits env (2 * ep.deferred.length))).error
  | _ => p.error

/-- What keeps an operation does not retire it. -/
theorem Keeps.not_retires {ep : Ep} {a : EpAct} (h : ep.Keeps (ep.act a)) (p : Pending) :
    ¬ ep.Retires a p := by
  rintro ⟨hp, hgone⟩
  obtain ⟨q, hq, hid⟩ := h p hp
  exact hgone q hq hid

/-- **A walk of the deferred queue tells the errors of the receives it retires.** -/
theorem told_of_retry {ep : Ep} (h : ep.Accounted) (hcq : ep.cfg.hasRxCq = true) (env : Env)
    {p : Pending} (hret : ep.Retires (.retry env) p) (herror : ep.lastError (.retry env) p ≠ 0) :
    p.type = .rndzvRx ∧ p.Told ep (ep.act (.retry env)) := by
  have hcovered := h.covered
  have hfuel := visitsOf_le ep.deferred
  obtain ⟨hwalk, -⟩ := Ep.Covered.loop_walk env hcovered hfuel []
  have hcloses := Ep.ClosesAll.loop env (2 * ep.deferred.length) [] ep
  have hfinalized : ((ep.finalized env (2 * ep.deferred.length)).map Prod.fst).Perm _ :=
    hcovered.finalized_perm hfuel
  have hpending := (hwalk.pending hcovered).1
  have hreads := hwalk.countP_reads p.id
  obtain ⟨hp, hgone⟩ := hret
  have hact : (ep.act (.retry env)).pending
      = (rdsProgressDeferredLoop env (2 * ep.deferred.length) [] ep).1.pending := rfl
  have hrxCq : (ep.act (.retry env)).rxCq
      = (rdsProgressDeferredLoop env (2 * ep.deferred.length) [] ep).1.rxCq := rfl
  rw [hact, hpending] at hgone
  dsimp only [lastError] at herror
  generalize ep.finalized env (2 * ep.deferred.length) = fs at hcloses hfinalized
  generalize ep.visits env (2 * ep.deferred.length) = vs at hcloses hfinalized hreads hgone herror
  -- the operation was finalized, or it would still be pending
  have hfin : p.Finished vs := by
    by_contra hno
    have hsome : p.outcome vs = some (p.settle vs) := if_neg hno
    exact hgone _ (List.mem_filterMap.mpr ⟨p, hp, hsome⟩) rfl
  have htype : p.type = .rndzvRx := by
    have hpos : 0 < ep.parkedReads p.id := by
      rw [← hreads]
      refine hfin.1.trans_le (List.countP_mono_left (fun v _ hv => ?_))
      unfold Visit.takes at hv
      simp only [Bool.and_eq_true] at hv
      exact hv.1
    obtain ⟨d, hd, hown⟩ := List.countP_pos_iff.mp hpos
    obtain ⟨q, hfind, hq, -⟩ := h.parkedOwned d hd p.id (by simpa using hown)
    rw [hcovered.find hp] at hfind
    cases hfind
    exact hq
  refine ⟨htype, ?_⟩
  have hclosed : p.settle vs ∈ fs.map Prod.fst := by
    refine hfinalized.mem_iff.mpr (List.mem_filterMap.mpr ⟨p, hp, ?_⟩)
    exact if_pos hfin
  obtain ⟨x, hx, hxp⟩ := List.mem_map.mp hclosed
  unfold Pending.Told Pending.cqOf
  rw [if_pos htype, if_pos htype, hrxCq, hcloses.rxCq, List.drop_left]
  obtain ⟨c, hc, htold⟩ : ∃ c ∈ x.1.entries ep.cfg, c.context = p.context ∧ c.err ≠ 0 := by
    rw [hxp, Pending.entries, if_pos (.inr herror), rxEntries, if_pos hcq]
    exact ⟨_, List.mem_singleton_self _, rfl, herror⟩
  exact ⟨c, List.mem_flatMap.mpr ⟨x, hx, hc⟩, htold⟩

/-- What ends an operation tells its error if it reports. -/
theorem Ends.told_iff {ep : Ep} (hsound : ep.Accounted) (htx : ep.cfg.hasTxCq = true)
    (hrx : ep.cfg.hasRxCq = true) {a : EpAct} {p : Pending} (hret : ep.Retires a p)
    (herror : ep.lastError a p ≠ 0) {p₀ q : Pending} (hends : ep.Ends q (ep.act a))
    (hfind : rdsPendingFind ep p₀.id = some p₀)
    (hq : q = { p₀ with error := ep.lastError a p₀, segRemaining := q.segRemaining }) :
    p.Told ep (ep.act a) ↔ p.Reports := by
  have hid : q.id = p₀.id := by rw [hq]
  obtain rfl : p = p₀ := hends.eq_of_gone hsound.distinct hret.1 hret.2 (hid ▸ hfind)
  have htold := hends.told htx hrx
  rw [hq] at htold
  exact htold.trans (and_iff_right herror)

/-- **One action**: an operation that is retired with an error is told of exactly if it
reports. -/
theorem told_iff {ep : Ep} (hacc : ep.Accounted) (htx : ep.cfg.hasTxCq = true)
    (hrx : ep.cfg.hasRxCq = true) {a : EpAct} {p : Pending} (hret : ep.Retires a p)
    (herror : ep.lastError a p ≠ 0) : p.Told ep (ep.act a) ↔ p.Reports := by
  have hkeeps (h : ep.Keeps (ep.act a)) : p.Told ep (ep.act a) ↔ p.Reports :=
    absurd hret (h.not_retires p)
  cases a with
  | send env iov destAddr tag data context flags tagged =>
    exact hkeeps (.links (.genericSend env ep iov destAddr tag data context flags tagged))
  | inject env buf len destAddr tag tagged =>
    exact hkeeps (.links (.outer (rdsGenericInject_outer env ep buf len destAddr tag tagged)))
  | postRecv env iov addr tag ignore context flags tagged =>
    exact hkeeps (.links (.postRecv env ep iov addr tag ignore context flags tagged))
  | cancel context => exact hkeeps (.links (.cancel ep context))
  | rma env iov remoteFi remoteOff key isWrite context flags =>
    exact hkeeps (.links (.startsRma
      (rdsRmaCommon_starts env ep iov remoteFi remoteOff key isWrite context flags)))
  | injectWrite env buf len destAddr addr key =>
    exact hkeeps (.links (.startsRma (rdsInjectWrite_starts env ep buf len destAddr addr key)))
  | flush env addr =>
    exact hkeeps (.links (.outer (rdsRingFlushCredit_outer env ep addr)))
  | landSlot addr idx slot => exact hkeeps (.of_eq rfl)
  | landCredit addr value => exact hkeeps (.of_eq rfl)
  | shareDomain domain => exact hkeeps (.of_eq rfl)
  | recv env src bytes =>
    have hstep : ep.Keeps (rdsRecvDgram env ep src bytes)
        ∨ ∃ q, rdsPendingFind ep q.id = some q ∧ ep.Ends q (rdsRecvDgram env ep src bytes) :=
      rdsRecvDgram_elim (.inl (.of_eq rfl)) (rdsHandleInbound_ends env ep _ _ _ _)
    obtain h | ⟨q, hfind, hends⟩ := hstep
    · exact hkeeps h
    · exact hends.told_iff hacc htx hrx hret herror hfind rfl
  | poll env addr =>
    obtain h | ⟨q, hfind, hends⟩ := rdsRingPollSlot_ends env ep addr
    · exact hkeeps h
    · exact hends.told_iff hacc htx hrx hret herror hfind rfl
  | notify env op status =>
    have hpre : ep.SameBooks { ep with inflight := ep.inflight.erase op } := ⟨rfl, rfl, rfl, rfl⟩
    obtain h | ⟨p₀, q, hfind, hq, hends⟩ := rdsHandleRdmaNotify_ends env
      { ep with inflight := ep.inflight.erase op } op.token status
    · exact hkeeps (h.start rfl)
    · refine (hends.within hpre ⟨rfl, rfl, rfl, rfl⟩).told_iff hacc htx hrx hret herror hfind ?_
      rw [hq]
      rfl
  | retry env =>
    obtain ⟨htype, htold⟩ := told_of_retry hacc hrx env hret herror
    exact iff_of_true htold (.inl htype)

end Ep

/-- **A failure is reported exactly if it is a receive's or a completion was asked
for.** In every run of an endpoint with its completion queues, an operation that is
retired with an error has an error entry with its context written to its queue if and
only if it is a rendezvous receive or its completion is not suppressed. A receive that
never became pending, because all its reads failed at once, is told too: whatever was
finalized after a truncation or a failed read reported an error. -/
theorem retired_failure_told_iff {cfg : EpCfg} (htx : cfg.hasTxCq = true)
    (hrx : cfg.hasRxCq = true) {domain : Domain} {acts : List EpAct} {a : EpAct}
    (hrun : Ep.Runs cfg domain (acts ++ [a]))
    (hids : (Ep.after cfg domain (acts ++ [a])).idsGiven < 2 ^ 64) :
    (∀ p, (Ep.after cfg domain acts).Retires a p → (Ep.after cfg domain acts).lastError a p ≠ 0 →
      (p.Told (Ep.after cfg domain acts) (Ep.after cfg domain (acts ++ [a])) ↔ p.Reports))
    ∧ ∀ id cqes, .rxDone id cqes ∈ (Ep.after cfg domain (acts ++ [a])).trace →
      Event.Spoiled (Ep.after cfg domain (acts ++ [a])).trace id → ∃ c ∈ cqes, c.err ≠ 0 := by
  have hafter : Ep.after cfg domain (acts ++ [a]) = (Ep.after cfg domain acts).act a :=
    List.foldl_append
  have hsound' := Ep.Sound.after hrun hids
  have hcfg' := Ep.cfg_after hrun
  obtain ⟨hrun, -⟩ := Along.append.mp hrun
  have hcfg := Ep.cfg_after hrun
  rw [hafter] at hids hsound' hcfg' ⊢
  have hsound : (Ep.after cfg domain acts).Sound :=
    Ep.Sound.after hrun ((Ep.MatchStep.act _ a).idsGiven_le.trans_lt hids)
  refine ⟨fun p hret herror => ?_, fun id cqes hdone hspoiled => ?_⟩
  · exact Ep.told_iff hsound.accounted (by rw [hcfg]; exact htx) (by rw [hcfg]; exact hrx) hret
      herror
  · exact (hsound'.accounted.error (by rw [hcfg']; exact hrx) id cqes hdone).mpr hspoiled

/-- **In every run, before the ids wrap, a one-sided operation is reported exactly once** if it
is not an accepted transfer of no bytes whose completion was asked for. -/
theorem rmaReportedOnce_after_iff {cfg : EpCfg} (htx : cfg.hasTxCq = true) {domain : Domain}
    {acts : List EpAct} (hrun : Ep.Runs cfg domain acts)
    (hids : (Ep.after cfg domain acts).idsGiven + 1 < 2 ^ 64) (env : Env) (iov : List Iovec)
    (htotal : ofiTotalIovLen iov ≤ rdsMaxMsgSize) (remoteFi remoteOff key : UInt64)
    (isWrite : Bool) (context : ℕ) (flags : UInt64) (ns : List Notice)
    (hns : (ns.map Notice.op).Perm ((rdsRmaCommon env (Ep.after cfg domain acts) iov remoteFi
      remoteOff key isWrite context flags).1.inflight.drop
        (Ep.after cfg domain acts).inflight.length)) :
    RmaReportedOnce env (Ep.after cfg domain acts) iov remoteFi remoteOff key isWrite context flags
        ns
      ↔ ¬ (ofiTotalIovLen iov = 0 ∧ (rdsAvAddr cfg remoteFi).isSome
        ∧ env.alloc (Ep.after cfg domain acts).tick = true
        ∧ hasFlag (cfg.txOpFlags ||| flags) fiCompletion = true) := by
  have hcfg := Ep.cfg_after hrun
  have hfresh := (Ep.Sound.after hrun (Nat.lt_of_succ_lt hids)).fresh hids
  have hiff := rmaReportedOnce_iff_of_fresh env _ (by rw [hcfg]; exact htx) hfresh iov htotal
    remoteFi remoteOff key isWrite context flags ns hns
  rw [hcfg] at hiff
  exact hiff

/-- A configuration with selective completion. -/
def selective : EpCfg := { EpCfg.standard false [10, 20] 10 with txOpFlags := 0 }

/-- A write of eight bytes, with these flags, that fails in the network. -/
def failedWrite (flags : UInt64) : List EpAct :=
  let env := Env.calm fun _ _ => .ok 1
  [.rma env [⟨4096, 8⟩] 1 0 7 true 5 flags,
    .notify env (rmaOp 20 7 0 (.iov [⟨4096, 8⟩]) true 1) (-5)]

/-- Before the notification the write is pending. -/
def writing (flags : UInt64) : Ep :=
  Ep.after selective (Domain.opened false (some 3) 0 0) ((failedWrite flags).take 1)

/-- And after it, retired. -/
def written (flags : UInt64) : Ep :=
  Ep.after selective (Domain.opened false (some 3) 0 0) (failedWrite flags)

/-- If the completion was asked for, the failure is reported. -/
theorem failed_write_is_told :
    (writing fiCompletion).pending ≠ []
      ∧ ∀ p ∈ (writing fiCompletion).pending,
        p.Told (writing fiCompletion) (written fiCompletion) := by
  have hrun : Ep.Runs selective (Domain.opened false (some 3) 0 0)
      ((failedWrite fiCompletion).take 1 ++ [.notify (Env.calm fun _ _ => .ok 1)
        (rmaOp 20 7 0 (.iov [⟨4096, 8⟩]) true 1) (-5)]) := by decide +kernel
  have hids : (written fiCompletion).idsGiven < 2 ^ 64 := by decide +kernel
  refine ⟨by decide +kernel, fun p hp => ?_⟩
  have hstate : ∀ p ∈ (writing fiCompletion).pending, (p.heed (-5)).error ≠ 0 ∧ p.noComp = false
      ∧ ∀ q ∈ (written fiCompletion).pending, q.id ≠ p.id := by decide +kernel
  obtain ⟨herror, hcomp, hgone⟩ := hstate p hp
  exact ((retired_failure_told_iff rfl rfl hrun hids).1 p ⟨hp, hgone⟩ herror).mpr (.inr hcomp)

/-- **A failed write that asked for no completion is not reported at all.** It was
accepted, it is retired with its error, and nothing is written. -/
theorem failed_write_is_not_told :
    Ep.Runs selective (Domain.opened false (some 3) 0 0) (failedWrite 0)
      ∧ (writing 0).pending.length = 1
      ∧ (∀ p ∈ (writing 0).pending, (p.heed (-5)).error ≠ 0)
      ∧ (written 0).pending = [] ∧ (written 0).txCq = [] ∧ (written 0).rxCq = [] :=
  ⟨by decide +kernel, by decide +kernel, by decide +kernel, by decide +kernel, by decide +kernel,
    by decide +kernel⟩
