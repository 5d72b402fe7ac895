import RdsProv.Conservation
import RdsProv.OneChannel
import RdsProv.Work

/-!
# Transfers run to their end

Conservation says that a rendezvous send that is pending has its token somewhere. It
does not say that the token ever comes back: a `FIN` could be parked for good, a read
retried for ever, a one-sided transfer could wait for a notification that is not to come.
That none of this happens is shown here, for systems without rings.

**What moves.** Left to itself, a system can only deliver datagrams, take notifications
of operations in flight and retry what is parked. Each of these uses up work (`Ep.work`),
except for a retry that finds no room at all, which is not counted as a move. So after no
more moves than there is work, a system left to itself stops.

**Where it stops.** With nothing on its way, nothing in flight and nothing parked, no receive
is pending, and no one-sided transfer. A rendezvous send that is still pending has its one
token among the unexpected messages: it waits for its receiver to post a receive, and for
nothing else.

A reliable system delivers datagrams once and whole. A receiver drops one that does not fit
its buffer; when none is dropped so is the subject of `RdsProv.DatagramSize`.
-/

/-! ## One-sided transfers -/

/-- **A one-sided transfer that is pending waits for a part of it.** -/
def Ep.RmaLive (ep : Ep) : Prop :=
  ∀ p ∈ ep.pending, p.type = .rma → p.segRemaining ≠ 0

/-- A step that leaves one-sided transfers alone, or with parts in flight. -/
def Ep.RmaKept (ep e : Ep) : Prop :=
  ∀ q ∈ e.pending, q.type = .rma → q ∈ ep.pending ∨ q.segRemaining ≠ 0

theorem Ep.RmaLive.kept {ep e : Ep} (h : ep.RmaLive) (hkept : ep.RmaKept e) : e.RmaLive := by
  intro q hq htype
  obtain hold | hlive := hkept q hq htype
  · exact h q hold htype
  · exact hlive

namespace Ep.RmaKept

variable {ep e e' : Ep}

theorem of_subset (h : e.pending ⊆ ep.pending) : ep.RmaKept e := fun _ hq _ => .inl (h hq)

theorem of_eq (h : e.pending = ep.pending) : ep.RmaKept e := of_subset (h ▸ List.Subset.refl _)

/-- What is new has a part in flight. -/
theorem links (h : ep.Links e) : ep.RmaKept e := by
  obtain ⟨l, hl, hnew⟩ := h
  intro q hq htype
  rw [hl, List.mem_append] at hq
  exact hq.imp_right (fun hq => hnew q hq htype)

/-- The step starts from an endpoint with the same operations. -/
theorem start (h : e.RmaKept e') (he : e.pending = ep.pending) : ep.RmaKept e' := by
  intro q hq htype
  rw [← he]
  exact h q hq htype

theorem outer (h : ep.Outer e) : ep.RmaKept e := of_eq h.pending

/-- An operation is written back. -/
theorem storePending (ep : Ep) {q : Pending} (hq : q.type = .rma → q.segRemaining ≠ 0) :
    ep.RmaKept (ep.storePending q) := by
  intro r hr htype
  have hr : r ∈ ep.pending.modifyFirst (·.id == q.id) (fun _ => q) := hr
  cases hfind : ep.pending.find? (·.id == q.id) with
  | none =>
    rw [List.modifyFirst_of_none hfind] at hr
    exact .inl hr
  | some p =>
    obtain ⟨l₁, l₂, hl, -, -, -, hmod⟩ := List.find?_split hfind
    rw [hmod, List.mem_append, List.mem_cons] at hr
    rw [hl]
    obtain hr | rfl | hr := hr
    · exact .inl (List.mem_append_left _ hr)
    · exact .inr (hq htype)
    · exact .inl (List.mem_append_right _ (List.mem_cons_of_mem _ hr))

theorem handleInbound (env : Env) (ep : Ep) (hdr : Hdr) (payload : List UInt8) (src : SockAddr)
    (srcFi : UInt64) : ep.RmaKept (rdsHandleInbound env ep hdr payload src srcFi) := by
  refine rdsHandleInbound_elim (of_eq rfl) (fun p _ htype => ?_)
    (fun _ _ => outer (rdsRingHandleCtrl_outer env ep hdr payload srcFi))
    (fun _ _ => links (.handleMessage env ep _))
  have hends : ep.Ends p (rdsPendingComplete ep p) := .complete (by rw [htype]; decide)
  refine of_subset ?_
  rw [hends.pending]
  exact List.eraseP_subset

theorem ringDeliver (env : Env) (ep : Ep) (sa : SockAddr) (addr : UInt64) (slot : RingSlot) :
    ep.RmaKept (rdsRingDeliver env ep sa addr slot) := by
  exact rdsRingDeliver_elim (of_eq rfl) (fun hdr payload =>
    handleInbound env ep hdr payload sa addr)

theorem pollSlot (env : Env) (ep : Ep) (addr : UInt64) :
    ep.RmaKept ((rdsRingPollSlot env ep addr).getD ep) := by
  obtain ⟨h, -⟩ | ⟨p, slot, e, -, -, h, hout⟩ := rdsRingPollSlot_outer env ep addr
  · rw [h]
    exact of_eq rfl
  · rw [h]
    intro q hq htype
    have hq : q ∈ e.pending := hq
    rw [hout.pending] at hq
    exact ringDeliver env (ep.setPeer (p.absorbAck slot.ack)) p.sa p.addr slot q hq htype

/-- **A walk of the deferred queue** concerns receives only. -/
theorem progressDeferred (env : Env) {ep : Ep} (h : ep.Accounted) :
    ep.RmaKept (rdsProgressDeferred env ep).1 := by
  have hcovered := h.covered
  obtain ⟨hwalk, -⟩ := Ep.Covered.loop_walk env hcovered (visitsOf_le ep.deferred) []
  have hpending := (hwalk.pending hcovered).1
  intro q hq htype
  have hq : q ∈ (rdsProgressDeferredLoop env (2 * ep.deferred.length) [] ep).1.pending := hq
  rw [hpending, List.mem_filterMap] at hq
  obtain ⟨p, hp, hout⟩ := hq
  have hptype : p.type = .rma := by
    unfold Pending.outcome at hout
    split at hout
    · cases hout
    · cases hout
      exact htype
  -- a parked read of it would have a receive of the same id
  have hnone : ep.parkedReads p.id = 0 := by
    refine List.countP_eq_zero.mpr (fun d hd hown => ?_)
    obtain ⟨r, hfind, hr, -⟩ := h.parkedOwned d hd p.id (by simpa using hown)
    rw [hcovered.find hp] at hfind
    cases hfind
    rw [hptype] at hr
    cases hr
  have huntaken := List.countP_eq_zero.mp ((hwalk.countP_reads p.id).trans hnone)
  rw [Pending.outcome_of_untaken (fun v hv => ?_)] at hout
  · cases hout
    exact .inl hp
  · unfold Visit.takes
    rw [Bool.eq_false_iff.mpr (huntaken v hv), Bool.false_and]

/-- **A notification** takes a part from a one-sided transfer, and ends it with the last. -/
theorem handleRdmaNotify (env : Env) {ep : Ep} (h : ep.RmaLive) (token : UInt64) (status : ℤ) :
    ep.RmaKept (rdsHandleRdmaNotify env ep token status) := by
  refine rdsHandleRdmaNotify_elim (of_eq rfl) (fun p n hfind hn => ?_) (fun p _ htype => ?_)
    (fun p _ _ => ?_)
  · have hlive := h p (List.mem_of_find?_eq_some hfind)
    exact (storePending _ (q := { p with error := (p.heed status).error, segRemaining := n })
      (fun htype => hn htype (hlive htype))).start rfl
  · refine of_subset ?_
    rw [(Ep.Ends.complete (by dsimp only; rw [htype]; decide)).pending]
    exact List.eraseP_subset
  · refine of_subset ?_
    have hfinal := (Ep.Reports.finalize env { ep with trace := ep.trace ++ p.acks status } { p with
      error := (p.heed status).error, segRemaining := p.segRemaining - 1 }).pending
    rw [Ep.unlinkPending, hfinal]
    exact List.eraseP_subset

end Ep.RmaKept

/-- **One action keeps one-sided transfers waiting for something.** -/
theorem Ep.RmaLive.act {ep : Ep} (h : ep.RmaLive) (hsound : ep.Sound) (a : EpAct) :
    (ep.act a).RmaLive := by
  refine h.kept ?_
  cases a with
  | send env iov destAddr tag data context flags tagged =>
    exact .links (.genericSend env ep iov destAddr tag data context flags tagged)
  | inject env buf len destAddr tag tagged =>
    exact .outer (rdsGenericInject_outer env ep buf len destAddr tag tagged)
  | postRecv env iov addr tag ignore context flags tagged =>
    exact .links (.postRecv env ep iov addr tag ignore context flags tagged)
  | cancel context => exact .links (.cancel ep context)
  | rma env iov remoteFi remoteOff key isWrite context flags =>
    exact .links (.startsRma
      (rdsRmaCommon_starts env ep iov remoteFi remoteOff key isWrite context flags))
  | injectWrite env buf len destAddr addr key =>
    exact .links (.startsRma (rdsInjectWrite_starts env ep buf len destAddr addr key))
  | recv env src bytes =>
    exact rdsRecvDgram_elim (motive := ep.RmaKept) (.of_eq rfl) (.handleInbound env ep _ _ src _)
  | notify env op status =>
    have herased : Ep.RmaLive { ep with inflight := ep.inflight.erase op } := h
    exact (Ep.RmaKept.handleRdmaNotify env herased op.token status).start rfl
  | retry env => exact .progressDeferred env hsound.accounted
  | poll env addr => exact .pollSlot env ep addr
  | flush env addr => exact .outer (rdsRingFlushCredit_outer env ep addr)
  | landSlot | landCredit | shareDomain => exact .of_eq rfl

/-! ## Where datagrams go -/

/-- **Without a ring, nothing but `FIN`s was sent.** -/
structure Ep.Answers (ep e : Ep) : Prop where
  cfg : e.cfg = ep.cfg
  wire : ep.cfg.eagerRdma = false →
    ∃ l, e.wire = ep.wire ++ l ∧ ∀ d ∈ l, ∃ dst id, d = finDgram ep.cfg.self dst id
  writes : ∃ l, e.writes = ep.writes ++ l ∧ ∀ w ∈ l, w.ctl? = none

namespace Ep.Answers

variable {ep e : Ep}

/-- No datagram was sent, and what was written to rings carries no message. -/
theorem of_outer (h : ep.Outer e) (hwire : ep.cfg.eagerRdma = false → e.wire = ep.wire) :
    ep.Answers e := by
  obtain ⟨l, hl, hplain⟩ := h.writes
  refine ⟨h.cfg, fun hoff => ⟨[], ?_, List.forall_mem_nil _⟩, l, hl, fun w hw => (hplain w hw).ctl?⟩
  rw [hwire hoff, List.append_nil]

theorem takesIn : Ep.TakesIn Ep.Answers where
  trans h h' := by
    obtain ⟨w, hw, hslot⟩ := h.writes
    obtain ⟨w', hw', hslot'⟩ := h'.writes
    refine ⟨h'.cfg.trans h.cfg, fun hoff => ?_, w ++ w', by rw [hw', hw, List.append_assoc],
      List.forall_mem_append.mpr ⟨hslot, hslot'⟩⟩
    obtain ⟨l, hl, hfin⟩ := h.wire hoff
    obtain ⟨l', hl', hfin'⟩ := h'.wire (by rw [h.cfg]; exact hoff)
    rw [h.cfg] at hfin'
    exact ⟨l ++ l', by rw [hl', hl, List.append_assoc], List.forall_mem_append.mpr ⟨hfin, hfin'⟩⟩
  offRing h :=
    ⟨h.cfg, fun _ => h.wire, [], by rw [h.writes, List.append_nil], List.forall_mem_nil _⟩
  handleCtrl env ep hdr payload srcFi := by
    refine of_outer (rdsRingHandleCtrl_outer env ep hdr payload srcFi) (fun hoff => ?_)
    -- without a ring a handshake is ignored
    unfold rdsRingHandleCtrl
    rw [hoff]
    rfl
  setPeer _ _ := of_outer (Ep.outer_setPeer _ _) (fun _ => rfl)
  returnCredit env ep p addr _ := by
    refine of_outer (rdsRingReturnCredit_outer env ep p) (fun _ => ?_)
    obtain ⟨-, h⟩ | ⟨-, h⟩ := rdsRingReturnCredit_cases env ep p
    · rw [h]
      rfl
    · rw [h]
      rfl

end Ep.Answers

/-- **Datagrams that are no `FIN`s go to given addresses**, and requests go as datagrams. -/
structure Ep.Directed (A : SockAddr → Prop) (ep : Ep) : Prop where
  wire : ∀ d ∈ ep.wire, (∃ dst id, d = finDgram ep.cfg.self dst id) ∨ A d.dst
  writes : ∀ w ∈ ep.writes, w.ctl? = none

namespace Ep.Directed

variable {A : SockAddr → Prop} {ep e : Ep}

/-- Nothing was sent. -/
theorem of_eq (h : ep.Directed A) (hcfg : e.cfg = ep.cfg) (hwire : e.wire = ep.wire)
    (hwrites : e.writes = ep.writes) : e.Directed A := by
  refine ⟨?_, hwrites ▸ h.writes⟩
  rw [hwire, hcfg]
  exact h.wire

/-- A datagram was sent to one of the addresses. -/
theorem sends (h : ep.Directed A) {d : Dgram} (hd : A d.dst) (hcfg : e.cfg = ep.cfg)
    (hwire : e.wire = ep.wire ++ [d]) (hwrites : e.writes = ep.writes) : e.Directed A := by
  refine ⟨?_, hwrites ▸ h.writes⟩
  rw [hwire, hcfg]
  exact List.forall_mem_append.mpr ⟨h.wire, List.forall_mem_singleton.mpr (.inr hd)⟩

theorem answers (h : ep.Directed A) (hoff : ep.cfg.eagerRdma = false) (hstep : ep.Answers e) :
    e.Directed A := by
  obtain ⟨l, hl, hfin⟩ := hstep.wire hoff
  obtain ⟨w, hw, hslot⟩ := hstep.writes
  refine ⟨?_, ?_⟩
  · rw [hl, hstep.cfg]
    exact List.forall_mem_append.mpr ⟨h.wire, fun d hd => .inl (hfin d hd)⟩
  · rw [hw]
    exact List.forall_mem_append.mpr ⟨h.writes, hslot⟩

variable (h : ep.Directed A) (hoff : ep.cfg.eagerRdma = false) (hav : ∀ sa ∈ ep.cfg.av, A sa)

include h in
theorem sendEager (env : Env) (iov : List Iovec) {dest : SockAddr} (hdest : A dest)
    (tag data : UInt64) (context : ℕ) (flags : UInt64) (tagged genComp : Bool) :
    (rdsSendEager env ep iov dest tag data context flags tagged genComp).1.Directed A :=
  rdsSendEager_elim (fun _ _ _ _ _ => h.of_eq rfl rfl rfl) (h.sends hdest rfl rfl rfl)

include h hoff in
/-- A request goes to its destination. -/
theorem sendRts (env : Env) (p : Pending) (bytes : List UInt8) {dest : SockAddr}
    (hdest : A dest) (destAddr : UInt64) :
    (rdsSendRts env ep p bytes dest destAddr).1.Directed A := by
  refine rdsSendRts_elim (fun e _ hsend => ?_) (fun e _ hsend => ?_) (fun e hsend => ?_)
    (fun e hsend => ?_)
  · rw [(rdsRingSend_of_off hoff hsend).1]
    exact h.of_eq rfl rfl rfl
  · rw [(rdsRingSend_of_off hoff hsend).1]
    exact h.of_eq rfl rfl rfl
  · cases (rdsRingSend_of_off hoff hsend).2
  · rw [(rdsRingSend_of_off hoff hsend).1]
    exact h.sends hdest rfl rfl rfl

include h hoff hav in
/-- **An action sends to addresses of the address vector only**, but for `FIN`s. -/
theorem act (x : EpAct) : (ep.act x).Directed A := by
  have hlisted {addr : UInt64} {dest : SockAddr} (hdest : rdsAvAddr ep.cfg addr = some dest) :
      A dest := hav dest (List.mem_of_getElem? (getElem?_of_rdsAvAddr hdest))
  cases hx : x.dest? with
  | none =>
    exact h.answers hoff (Ep.Answers.takesIn.act
      (fun _ _ _ _ => .of_outer (.of_eq rfl) (fun _ => rfl)) ep hx)
  | some a =>
    cases x with
    | send env iov destAddr tag data context flags tagged =>
      refine rdsGenericSend_elim (motive := fun r => r.1.Directed A) (fun _ => h)
        (fun _ _ _ _ _ _ _ _ hsend hret => absurd (rdsRingSend_of_off hoff hsend).2 hret)
        (fun dest genComp e hdest _ _ _ hsend => ?_) (fun dest genComp _ hdest _ _ _ => ?_)
      · rw [(rdsRingSend_of_off hoff hsend).1]
        exact h.sendEager env iov (hlisted hdest) tag data context flags tagged genComp
      · refine rdsSendRndzv_elim (fun _ _ => h.of_eq rfl rfl rfl)
          (fun _ _ _ _ _ _ _ => h.of_eq rfl rfl rfl) (fun dom segs mrs _ _ _ _ => ?_)
        have hregistered : Ep.Directed A { ep with
            tick := ep.tick + 3
            domain := dom
            opId := succId ep.opId
            idsGiven := ep.idsGiven + 1 } := h.of_eq rfl rfl rfl
        exact hregistered.sendRts hoff env _ _ (hlisted hdest) destAddr
    | inject env buf len destAddr tag tagged =>
      refine rdsGenericInject_elim (motive := fun r => r.1.Directed A) (fun _ => h) h
        (fun _ _ _ _ _ hsend hret => absurd (rdsRingSend_of_off hoff hsend).2 hret)
        (fun dest e hdest _ hsend => ?_)
      rw [(rdsRingSend_of_off hoff hsend).1]
      exact h.sendEager env _ (hlisted hdest) tag 0 0 0 tagged false
    | _ => cases hx

end Ep.Directed

/-! ## Moves -/

namespace World

variable {ι : Type} [Fintype ι] [DecidableEq ι] {w : World ι}

/-- **What a system does when left to itself**: datagrams arrive, operations in flight are
notified, and what is parked is retried with some effect. The network is reliable; `sendmsg`
may ask to be tried again. -/
def Moves (w : World ι) (a : WorldAct ι) : Prop :=
  w.Admits False a ∧ match a with
    | .deliver .. => True
    | .own _ (.notify ..) => True
    | .own j (.retry env) => ((w j).act (.retry env)).deferred ≠ (w j).deferred
    | _ => False

/-- The work of a system. -/
def work (w : World ι) : ℕ := ∑ j, (w j).work

theorem work_update (w : World ι) (k : ι) (ep : Ep) :
    work (Function.update w k ep) + (w k).work = w.work + ep.work := by
  unfold work
  rw [← Finset.add_sum_erase _ _ (Finset.mem_univ k),
    ← Finset.add_sum_erase (a := k) Finset.univ (fun j => (w j).work) (Finset.mem_univ k),
    Function.update_self]
  have hrest : ∑ j ∈ Finset.univ.erase k, (Function.update w k ep j).work
      = ∑ j ∈ Finset.univ.erase k, (w j).work :=
    Finset.sum_congr rfl (fun j hj => by rw [Function.update_of_ne (Finset.ne_of_mem_erase hj)])
  rw [hrest]
  omega

/-- An action of an endpoint that uses up work of its own. -/
theorem work_actAt {k : ι} {a : EpAct} (h : ((w k).act a).work < (w k).work) :
    (w.actAt k a).work < w.work := by
  have := work_update w k ((w k).act a)
  unfold actAt
  omega

/-- **A move uses up work.** -/
theorem work_act_lt (hring : ∀ j, (w j).cfg.eagerRdma = false) {a : WorldAct ι} (h : w.Moves a) :
    (w.act a).work < w.work := by
  obtain ⟨hadm, hmove⟩ := h
  cases a with
  | lose | poll => cases hmove
  | deliver env j k d =>
    obtain ⟨hd, -, -⟩ := hadm
    -- the datagram leaves its sender with all it can cause
    have hsum : ((w j).wire.map Dgram.work).sum
        = d.work + (((w j).wire.erase d).map Dgram.work).sum := by
      rw [← List.sum_cons, ← List.map_cons]
      exact ((List.perm_cons_erase hd).map Dgram.work).sum_eq
    have hunsend : (w.unsend j d).work + d.work = w.work := by
      have hup := work_update w j { w j with wire := (w j).wire.erase d }
      have hself : ({ w j with wire := (w j).wire.erase d } : Ep).work + d.work = (w j).work := by
        unfold Ep.work
        dsimp only
        omega
      unfold unsend
      omega
    have hcfg : ((w.unsend j d) k).cfg.eagerRdma = false := by
      unfold unsend
      by_cases hk : k = j
      · rw [hk, Function.update_self]
        exact hring j
      · rw [Function.update_of_ne hk]
        exact hring k
    have htake := work_rdsRecvDgram env hcfg (w j).cfg.self d
    have hup := work_update (w.unsend j d) k
      (((w.unsend j d) k).act (.recv env (w j).cfg.self d.bytes))
    show ((w.unsend j d).actAt k (.recv env (w j).cfg.self d.bytes)).work < _
    unfold actAt
    have hact : (((w.unsend j d) k).act (.recv env (w j).cfg.self d.bytes)).work
        < ((w.unsend j d) k).work + d.work := htake
    omega
  | own j a =>
    obtain ⟨-, hadm, -⟩ := hadm
    cases a with
    | notify env op status =>
      refine work_actAt (lt_of_le_of_lt (work_rdsHandleRdmaNotify env op.token status) ?_)
      have hlen := List.length_erase_add_one (show op ∈ (w j).inflight from hadm)
      unfold Ep.work
      dsimp only
      omega
    | retry env =>
      obtain hlt | hsame := @work_rdsProgressDeferred env (w j)
      · exact work_actAt hlt
      · exact absurd hsame hmove
    | _ => cases hmove

end World

/-! ## What holds along the way -/

/-- What an endpoint has sent is on its way no more; the rest is as it was. -/
structure Ep.Thins (ep e : Ep) : Prop where
  eq : e = { ep with wire := e.wire, writes := e.writes }
  wire : e.wire ⊆ ep.wire
  writes : e.writes ⊆ ep.writes

namespace Ep.Thins

variable {ep e : Ep}

theorem refl (ep : Ep) : ep.Thins ep := ⟨rfl, List.Subset.refl _, List.Subset.refl _⟩

theorem sound (h : ep.Thins e) (hsound : ep.Sound) : e.Sound := by
  refine @Ep.Sound.of_sent ep e hsound (e.book 0 none).sent ?_ ?_ ?_
  · rw [h.eq]
    rfl
  · rw [h.eq]
  · rw [h.eq]

theorem rmaLive (h : ep.Thins e) (hlive : ep.RmaLive) : e.RmaLive := by
  have hpending : e.pending = ep.pending := by rw [h.eq]
  exact hlive.kept (.of_eq hpending)

theorem directed {A : SockAddr → Prop} (h : ep.Thins e) (hdir : ep.Directed A) :
    e.Directed A := by
  have hcfg : e.cfg = ep.cfg := by rw [h.eq]
  refine ⟨fun d hd => ?_, fun w hw => hdir.writes w (h.writes hw)⟩
  rw [hcfg]
  exact hdir.wire d (h.wire hd)

end Ep.Thins

namespace World

variable {ι : Type} [DecidableEq ι] {w : World ι}

theorem thins_unsend (w : World ι) (i : ι) (d : Dgram) (j : ι) : (w j).Thins (w.unsend i d j) := by
  unfold unsend
  by_cases hj : j = i
  · rw [hj, Function.update_self]
    exact ⟨rfl, List.erase_subset, List.Subset.refl _⟩
  · rw [Function.update_of_ne hj]
    exact .refl _

theorem thins_unwrite (w : World ι) (i : ι) (op : RdmaOp) (j : ι) :
    (w j).Thins (w.unwrite i op j) := by
  unfold unwrite
  by_cases hj : j = i
  · rw [hj, Function.update_self]
    exact ⟨rfl, List.Subset.refl _, List.erase_subset⟩
  · rw [Function.update_of_ne hj]
    exact .refl _

/-- **What an action of a system is for one endpoint**: something it sent may leave it, and
it may act. -/
theorem act_cases (w : World ι) (a : WorldAct ι) (j : ι) :
    ∃ e, (w j).Thins e ∧ (w.act a j = e ∨ ∃ x, w.act a j = e.act x) := by
  have hact (w' : World ι) (hthins : (w j).Thins (w' j)) (k : ι) (x : EpAct) :
      ∃ e, (w j).Thins e ∧ (w'.actAt k x j = e ∨ ∃ y, w'.actAt k x j = e.act y) := by
    refine ⟨w' j, hthins, ?_⟩
    unfold actAt
    by_cases hk : j = k
    · rw [hk, Function.update_self]
      exact .inr ⟨x, rfl⟩
    · rw [Function.update_of_ne hk]
      exact .inl rfl
  cases a with
  | own k x => exact hact w (.refl _) k x
  | deliver env i k d => exact hact (w.unsend i d) (thins_unsend w i d j) k _
  | lose i d => exact ⟨_, thins_unsend w i d j, .inl rfl⟩
  | poll env i k addr op => exact hact (w.unwrite i op) (thins_unwrite w i op j) k _

/-- Configurations never change. -/
theorem cfg_act (w : World ι) (a : WorldAct ι) (j : ι) : (w.act a j).cfg = (w j).cfg := by
  obtain ⟨e, hthins, hcases⟩ := act_cases w a j
  have hcfg : e.cfg = (w j).cfg := by rw [hthins.eq]
  obtain heq | ⟨x, heq⟩ := hcases
  · rw [heq, hcfg]
  · rw [heq, (Ep.MatchStep.act e x).cfg, hcfg]

theorem Reachable.cfg {lossy : Prop} {cfg : ι → EpCfg} {domain : ι → Domain}
    (h : Reachable lossy cfg domain w) (j : ι) : (w j).cfg = cfg j := by
  obtain ⟨acts, hrun, rfl⟩ := h
  have hstep : ∀ (w : World ι) (a : WorldAct ι), (w j).cfg = cfg j → w.Admits lossy a →
      ((w.act a) j).cfg = cfg j := fun w a hw _ => by rw [cfg_act, hw]
  exact Along.invariant hstep rfl hrun

variable [Fintype ι]

/-- **What holds in every state of a reliable system without rings.** -/
structure Calm (cfg : ι → EpCfg) (w : World ι) : Prop where
  inv : w.Inv False (fun j => (cfg j).self)
  config : ∀ j, (w j).cfg = cfg j
  rma : ∀ j, (w j).RmaLive
  directed : ∀ j, (w j).Directed (fun sa => ∃ k, (cfg k).self = sa)

variable {cfg : ι → EpCfg} {domain : ι → Domain}
  (haddr : Function.Injective (fun j => (cfg j).self))
  (hring : ∀ j, (cfg j).eagerRdma = false)
  (hav : ∀ j, ∀ sa ∈ (cfg j).av, ∃ k, (cfg k).self = sa)

omit [DecidableEq ι] in
theorem Calm.init : (World.init cfg domain).Calm cfg where
  inv := Inv.init False cfg domain
  config _ := rfl
  rma _ _ hp := by cases hp
  directed j := ⟨fun _ hd => (by cases hd), fun _ hw => (by cases hw)⟩

include hring hav

/-- **One action keeps a system calm.** -/
theorem Calm.act (h : w.Calm cfg) {a : WorldAct ι}
    (hinv : (w.act a).Inv False (fun j => (cfg j).self)) : (w.act a).Calm cfg := by
  have hstep (j : ι) : (w.act a j).RmaLive
      ∧ (w.act a j).Directed (fun sa => ∃ k, (cfg k).self = sa) := by
    obtain ⟨e, hthins, hcases⟩ := act_cases w a j
    have hcfg : e.cfg = cfg j := by
      rw [hthins.eq]
      exact h.config j
    have hlive := hthins.rmaLive (h.rma j)
    have hdir := hthins.directed (h.directed j)
    obtain heq | ⟨x, heq⟩ := hcases
    · rw [heq]
      exact ⟨hlive, hdir⟩
    · rw [heq]
      refine ⟨hlive.act (hthins.sound (h.inv.sound j)) x, hdir.act ?_ ?_ x⟩
      · rw [hcfg]
        exact hring j
      · rw [hcfg]
        exact hav j
  exact ⟨hinv, fun j => (cfg_act w a j).trans (h.config j), fun j => (hstep j).1,
    fun j => (hstep j).2⟩

include haddr

theorem Calm.of_reachable (h : Reachable False cfg domain w)
    (hids : ∀ j, (w j).idsGiven < 2 ^ 64) : w.Calm cfg := by
  obtain ⟨acts, hrun, rfl⟩ := h
  refine @Along.invariant (World ι) (WorldAct ι) World.act (World.Admits False)
    (fun w => (∀ j, (w j).idsGiven < 2 ^ 64) → w.Calm cfg) ?_ _ (fun _ => Calm.init) acts hrun hids
  intro w a hw hadm hids
  have h := hw (fun j => (idsGiven_le w a j).trans_lt (hids j))
  exact h.act hring hav (h.inv.act haddr hadm hids)

end World

/-! ## Rest -/

namespace World

variable {ι : Type}

/-- **A system at rest**: no datagram is on its way, nothing is in flight, nothing is parked,
and every operation that is still pending is a rendezvous send whose request waits for a
receive. -/
structure AtRest [Fintype ι] (w : World ι) : Prop where
  wire : ∀ j, (w j).wire = []
  inflight : ∀ j, (w j).inflight = []
  deferred : ∀ j, (w j).deferred = []
  waiting : ∀ j, ∀ p ∈ (w j).pending,
    p.type = .rndzvTx ∧ ∑ k, (w k).requestsWaiting (w j).cfg.self p.id = 1

variable {w : World ι} {cfg : ι → EpCfg}

/-- Where nothing moves, nothing is in flight and nothing is parked. -/
theorem idle_of_stuck (hstuck : ∀ a, ¬ w.Moves a) (j : ι) :
    (w j).inflight = [] ∧ (w j).deferred = [] := by
  have henv : ∀ env, some Env.roomy = some env → env.Lossy → False := by
    intro env h
    cases h
    exact Env.roomy_not_lossy
  constructor
  · refine List.eq_nil_iff_forall_not_mem.mpr (fun op hop => ?_)
    exact hstuck (.own j (.notify .roomy op 0)) ⟨⟨rfl, hop, henv⟩, trivial⟩
  · by_contra hparked
    refine hstuck (.own j (.retry .roomy)) ⟨⟨rfl, trivial, henv⟩, ?_⟩
    have hdrained : ((w j).act (.retry .roomy)).deferred = [] :=
      rdsProgressDeferred_roomy (fun _ _ => rfl) (w j)
    show ((w j).act (.retry .roomy)).deferred ≠ _
    rw [hdrained]
    exact fun h => hparked h.symm

/-- **Where nothing is on its way, in flight or parked, nothing moves.** -/
theorem stuck_of_idle [DecidableEq ι] (hwire : ∀ j, (w j).wire = [])
    (hinflight : ∀ j, (w j).inflight = []) (hdeferred : ∀ j, (w j).deferred = []) (a : WorldAct ι) :
    ¬ w.Moves a := by
  rintro ⟨hadm, hmove⟩
  cases a with
  | lose | poll => exact hmove
  | deliver env j k d =>
    have hd : d ∈ (w j).wire := hadm.1
    rw [hwire j] at hd
    cases hd
  | own j a =>
    cases a with
    | notify env op status =>
      have hop : op ∈ (w j).inflight := hadm.2.1
      rw [hinflight j] at hop
      cases hop
    | retry env =>
      refine hmove ?_
      show (rdsProgressDeferred env (w j)).1.deferred = _
      unfold rdsProgressDeferred
      rw [hdeferred j]
      exact hdeferred j
    | _ => exact hmove

/-- Where nothing moves, no datagram is on its way to an endpoint. -/
theorem not_sent_of_stuck (hstuck : ∀ a, ¬ w.Moves a) {j k : ι} {d : Dgram} (hd : d ∈ (w j).wire) :
    d.dst ≠ (w k).cfg.self := by
  intro hdst
  exact hstuck (.deliver .roomy j k d) ⟨⟨hd, hdst, Env.roomy_not_lossy⟩, trivial⟩

/-- Where nothing is in flight or parked, only rendezvous sends are pending. -/
theorem Calm.type_eq_rndzvTx [Fintype ι] (h : w.Calm cfg) {j : ι} (hinflight : (w j).inflight = [])
    (hdeferred : (w j).deferred = []) {p : Pending} (hp : p ∈ (w j).pending) :
    p.type = .rndzvTx := by
  have hok := (h.inv.sound j).ok
  have hremaining (htype : p.type ≠ .rndzvTx) : p.segRemaining = 0 := by
    have hcount := hok.remaining p hp htype
    unfold Book.outstanding Ep.book at hcount
    dsimp only at hcount
    rw [hinflight] at hcount
    exact UInt32.toNat_inj.mp hcount
  have hparked (htype : p.type = .rndzvRx) : p.segDeferred = 0 := by
    have hcount := hok.deferred p hp htype
    unfold Book.parkedReads Ep.book at hcount
    dsimp only at hcount
    rw [hdeferred] at hcount
    exact UInt32.toNat_inj.mp hcount
  cases htype : p.type with
  | rndzvTx => rfl
  | rma => exact absurd (hremaining (by rw [htype]; decide)) (h.rma j p hp htype)
  | rndzvRx =>
    obtain hne | hne := hok.live p hp htype nofun
    · exact absurd (hremaining (by rw [htype]; decide)) hne
    · exact absurd (hparked htype) hne

/-- **A calm system in which nothing moves is at rest.** -/
theorem Calm.atRest [Fintype ι] (h : w.Calm cfg)
    (haddr : Function.Injective (fun j => (cfg j).self)) (hstuck : ∀ a, ¬ w.Moves a) :
    w.AtRest := by
  have hidle := idle_of_stuck hstuck
  have hconserved := h.inv.conserved haddr
  -- what is on its way goes to an endpoint, and would be delivered
  have hwire (j : ι) : (w j).wire = [] := by
    refine List.eq_nil_iff_forall_not_mem.mpr (fun d hd => ?_)
    obtain ⟨k, hk⟩ : ∃ k, (cfg k).self = d.dst := by
      obtain ⟨dst, id, rfl⟩ | hlisted := (h.directed j).wire d hd
      · exact h.inv.fin_dst hd (ctl?_finDgram _ dst id)
      · exact hlisted
    refine not_sent_of_stuck hstuck (k := k) hd ?_
    rw [h.config k, hk]
  have htype : ∀ j, ∀ p ∈ (w j).pending, p.type = .rndzvTx := fun j p hp =>
    h.type_eq_rndzvTx (hidle j).1 (hidle j).2 hp
  refine ⟨hwire, fun j => (hidle j).1, fun j => (hidle j).2, fun j p hp => ⟨htype j p hp, ?_⟩⟩
  have hone : (w j).sendsPending p.id = 1 := by
    refine le_antisymm (hconserved.unique j p.id) (List.countP_pos_iff.mpr ⟨p, hp, ?_⟩)
    exact decide_eq_true ⟨htype j p hp, rfl⟩
  -- the token is not under way, nor with a receive
  have hrequests : (w j).requestsOut p.id = 0 := by
    unfold Ep.requestsOut
    rw [hwire j]
    refine Nat.add_eq_zero_iff.mpr ⟨rfl, List.countP_eq_zero.mpr (fun v hv hctl => ?_)⟩
    rw [(h.directed j).writes v hv] at hctl
    simp at hctl
  have hothers (k : ι) : (w k).receivesFor (w j).cfg.self p.id = 0
      ∧ (w k).finsParked (w j).cfg.self p.id = 0 ∧ (w k).finsOut (w j).cfg.self p.id = 0 := by
    refine ⟨List.countP_eq_zero.mpr (fun q hq hrx => ?_), ?_, ?_⟩
    · have hrx : q.type = .rndzvRx := (of_decide_eq_true hrx).1
      rw [htype k q hq] at hrx
      cases hrx
    · unfold Ep.finsParked
      rw [(hidle k).2]
      rfl
    · unfold Ep.finsOut
      rw [hwire k]
      refine Nat.add_eq_zero_iff.mpr ⟨rfl, List.countP_eq_zero.mpr (fun v hv hctl => ?_)⟩
      rw [(h.directed k).writes v hv] at hctl
      simp at hctl
  have htokens := hconserved.tokens j p.id
  unfold World.tokens at htokens
  rw [hrequests, hone, Nat.zero_add] at htokens
  rw [← htokens]
  refine Finset.sum_congr rfl (fun k _ => ?_)
  obtain ⟨hrx, hparked, hout⟩ := hothers k
  rw [hrx, hparked, hout]
  rfl

end World

/-- **Transfers run to their end.** Take a reliable system of endpoints without rings, whose
address vectors list endpoints of the system, in any state it can reach; reliable means that
datagrams are neither lost nor truncated, allocations succeed and `sendmsg` at most asks to be
tried again. Left to itself it stops, after no more moves than it has work; and where it stops,
however the moves were ordered, no datagram is on its way, nothing is in flight, nothing is
parked, no receive and no one-sided transfer is pending, and every rendezvous send that is
pending has its request among the unexpected messages of an endpoint, once. -/
theorem transfers_run_to_their_end {ι : Type} [Fintype ι] [DecidableEq ι] (cfg : ι → EpCfg)
    (domain : ι → Domain) (haddr : Function.Injective (fun j => (cfg j).self))
    (hring : ∀ j, (cfg j).eagerRdma = false)
    (hav : ∀ j, ∀ sa ∈ (cfg j).av, ∃ k, (cfg k).self = sa) {w : World ι}
    (hreach : World.Reachable False cfg domain w) :
    (∃ acts, Along World.act World.Moves w acts ∧ ∀ a, ¬ (acts.foldl World.act w).Moves a)
      ∧ ∀ acts, Along World.act World.Moves w acts → acts.length ≤ w.work
        ∧ ((∀ a, ¬ (acts.foldl World.act w).Moves a) →
            (∀ j, (acts.foldl World.act w j).idsGiven < 2 ^ 64) →
            (acts.foldl World.act w).AtRest) := by
  have hoff : ∀ w : World ι, ∀ a, (∀ j, (w j).cfg.eagerRdma = false) → w.Moves a →
      ∀ j, (w.act a j).cfg.eagerRdma = false := by
    intro w a hoff _ j
    rw [World.cfg_act, hoff j]
  have hlt : ∀ w : World ι, ∀ a, (∀ j, (w j).cfg.eagerRdma = false) → w.Moves a →
      (w.act a).work < w.work := fun w a hoff hmove => World.work_act_lt hoff hmove
  have hstart : ∀ j, (w j).cfg.eagerRdma = false := by
    intro j
    rw [hreach.cfg, hring]
  refine ⟨Along.exists_maximal hoff hlt hstart, fun acts hacts =>
    ⟨Along.length_le hoff hlt hstart hacts, fun hstuck hids => ?_⟩⟩
  have hreach' := hreach.run (hacts.imp (fun _ _ h => h.1))
  exact (World.Calm.of_reachable haddr hring hav hreach' hids).atRest haddr hstuck

/-- The moves that bring the transfer under back-pressure to its end. -/
def restOfTransfer : List (WorldAct (Fin 2)) :=
  refusedTransfer.drop 3 ++ [.own 1 (.retry .roomy), .deliver .roomy 1 0 (finDgram 20 10 2)]

/-- A send that was accepted and a receive for it: the read is parked, issued and
acknowledged, the `FIN` is parked, sent and delivered, and the system is at rest, within the
work it had, with no operation pending. -/
theorem one_send_runs_to_its_end :
    let w := World.after twoCfgs twoDomains (refusedTransfer.take 3)
    Along World.act World.Moves w restOfTransfer ∧ restOfTransfer.length ≤ w.work
      ∧ (restOfTransfer.foldl World.act w).AtRest
      ∧ ∀ j, (restOfTransfer.foldl World.act w j).pending = [] := by
  intro w
  obtain ⟨htake, hdrop⟩ := Along.append.mp (show Along World.act (World.Admits False)
    (World.init twoCfgs twoDomains) (refusedTransfer.take 3 ++ refusedTransfer.drop 3) from
      refusedTransfer_runs)
  obtain ⟨hdeliver, hretry, hnotify, -⟩ := hdrop
  have hmoves : Along World.act World.Moves w restOfTransfer :=
    ⟨⟨hdeliver, trivial⟩, ⟨hretry, by decide +kernel⟩, ⟨hnotify, trivial⟩,
      ⟨admits_own _ Env.roomy_not_lossy rfl rfl trivial, by decide +kernel⟩,
      ⟨⟨by decide +kernel, by decide +kernel, Env.roomy_not_lossy⟩, trivial⟩, trivial⟩
  have hall := (transfers_run_to_their_end twoCfgs twoDomains (by decide) (by decide) (by decide)
    ⟨_, htake, rfl⟩).2 restOfTransfer hmoves
  refine ⟨hmoves, hall.1, hall.2 ?_ (by decide +kernel), by decide +kernel⟩
  exact World.stuck_of_idle (by decide +kernel) (by decide +kernel) (by decide +kernel)
