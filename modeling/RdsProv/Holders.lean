import RdsProv.SendEffects
import RdsProv.Accounting
import Mathlib.Tactic.Abel

/-!
# What an endpoint holds

An endpoint holds registrations in two places: its peers hold their rings and credit
cells, and its pending sends hold their sources. `Ep.Metered` says that nothing else is
held by pending operations and that the counter of sends in flight counts them;
`Ep.Balanced` that a step keeps this and takes and gives back references exactly as it
opens and closes sends, whoever holds the rest. Every action is balanced
(`Ep.Balanced.act`).

A retried read looks its receive up by id. Should the counter of ids have wrapped, it may
find a send of the same number, count its read there and in the end unlink it. So a retry
is balanced while the parked reads name operations that hold nothing (`Ep.ReadsIdle`),
which they do until the ids wrap.
-/

/-! ## Sums of holds -/

/-- The cached handles of some holds. -/
def cachedSum (hs : List (PendType × Bool × List ℕ)) : Multiset ℕ :=
  (hs.map (fun h => cachedPart h.2.1 h.2.2)).sum

/-- The plain handles of some holds. -/
def plainSum (hs : List (PendType × Bool × List ℕ)) : Multiset ℕ :=
  (hs.map (fun h => plainPart h.2.1 h.2.2)).sum

theorem cachedSum_append (hs hs' : List (PendType × Bool × List ℕ)) :
    cachedSum (hs ++ hs') = cachedSum hs + cachedSum hs' := by
  unfold cachedSum
  rw [List.map_append, List.sum_append]

theorem plainSum_append (hs hs' : List (PendType × Bool × List ℕ)) :
    plainSum (hs ++ hs') = plainSum hs + plainSum hs' := by
  unfold plainSum
  rw [List.map_append, List.sum_append]

theorem cachedSum_cons (h : PendType × Bool × List ℕ) (hs : List (PendType × Bool × List ℕ)) :
    cachedSum (h :: hs) = cachedPart h.2.1 h.2.2 + cachedSum hs := List.sum_cons

theorem plainSum_cons (h : PendType × Bool × List ℕ) (hs : List (PendType × Bool × List ℕ)) :
    plainSum (h :: hs) = plainPart h.2.1 h.2.2 + plainSum hs := List.sum_cons

/-- The handles an endpoint holds in the cache. -/
def Ep.cachedHeld (ep : Ep) : Multiset ℕ := cachedSum ep.holds

/-- The handles an endpoint holds outside the cache. -/
def Ep.plainHeld (ep : Ep) : Multiset ℕ := ep.ringHeld + plainSum ep.holds

/-! ## Balanced steps -/

/-- **Admission control works**: only sends hold registrations, the counter counts the
sends, and there are no more than allowed. -/
structure Ep.Metered (ep : Ep) : Prop where
  sends : ∀ h ∈ ep.holds, h.1 = .rndzvTx
  inflight : ep.rndzvTxInflight.toNat = ep.holds.length
  bound : ep.holds.length ≤ ep.cfg.rndzvMaxInflight
  max : ep.cfg.rndzvMaxInflight < 2 ^ 32

/-- **A step that holds what it says it holds.** -/
def Ep.Balanced (ep ep' : Ep) : Prop :=
  ep.Metered → ep'.Metered ∧ ∀ cached plain,
    ep.domain.Custody False (ep.cachedHeld + cached) (ep.plainHeld + plain) →
    ep'.domain.Custody False (ep'.cachedHeld + cached) (ep'.plainHeld + plain)

namespace Ep.Metered

/-- Only a few fields matter. -/
theorem congr {ep ep' : Ep} (h : ep.Metered) (hcfg : ep'.cfg = ep.cfg)
    (hin : ep'.rndzvTxInflight = ep.rndzvTxInflight) (hholds : ep'.holds = ep.holds) :
    ep'.Metered where
  sends := by
    rw [hholds]
    exact h.sends
  inflight := by
    rw [hin, hholds]
    exact h.inflight
  bound := by
    rw [hcfg, hholds]
    exact h.bound
  max := by
    rw [hcfg]
    exact h.max

/-- An operation that is no send holds nothing. -/
theorem hold_eq_none {ep : Ep} (h : ep.Metered) {p : Pending} (hp : p ∈ ep.pending)
    (htype : p.type ≠ .rndzvTx) : p.hold = none := by
  cases hold : p.hold with
  | none => rfl
  | some x =>
    have hx : x.1 = p.type := by
      unfold Pending.hold at hold
      split at hold
      · cases hold
        rfl
      · cases hold
    exact absurd (hx.symm.trans (h.sends x (List.mem_filterMap.mpr ⟨p, hp, hold⟩))) htype

end Ep.Metered

/-- What holds nothing has no registrations. -/
theorem Pending.mrs_eq_nil {p : Pending} (h : p.hold = none) : p.mrs = [] := by
  unfold Pending.hold at h
  split at h
  · cases h
  · rename_i hcases
    exact not_not.mp (fun hne => hcases (.inr hne))

/-- What an operation adds to the handles held: its registrations, if it has any. -/
theorem sums_hold_cons (p : Pending) (ps : List Pending) :
    cachedSum ((p :: ps).filterMap Pending.hold)
        = cachedPart p.cached p.mrs + cachedSum (ps.filterMap Pending.hold)
      ∧ plainSum ((p :: ps).filterMap Pending.hold)
        = plainPart p.cached p.mrs + plainSum (ps.filterMap Pending.hold) := by
  cases hold : p.hold with
  | none =>
    rw [List.filterMap_cons_none hold, Pending.mrs_eq_nil hold, cachedPart_nil, plainPart_nil,
      zero_add, zero_add]
    exact ⟨rfl, rfl⟩
  | some x =>
    have hx : x.2 = (p.cached, p.mrs) := by
      unfold Pending.hold at hold
      split at hold
      · cases hold
        rfl
      · cases hold
    rw [List.filterMap_cons_some hold, cachedSum_cons, plainSum_cons, hx]
    exact ⟨rfl, rfl⟩

namespace Ep.Balanced

/-- Nothing held changes. -/
theorem of_eq {ep ep' : Ep} (hcfg : ep'.cfg = ep.cfg)
    (hin : ep'.rndzvTxInflight = ep.rndzvTxInflight) (hholds : ep'.holds = ep.holds)
    (hdom : ep'.domain = ep.domain) (hring : ep'.ringHeld = ep.ringHeld) : ep.Balanced ep' := by
  intro h
  refine ⟨h.congr hcfg hin hholds, fun cached plain hc => ?_⟩
  unfold Ep.cachedHeld Ep.plainHeld
  rw [hdom, hholds, hring]
  exact hc

theorem refl (ep : Ep) : ep.Balanced ep := of_eq rfl rfl rfl rfl rfl

theorem trans {e₁ e₂ e₃ : Ep} (h : e₁.Balanced e₂) (h' : e₂.Balanced e₃) : e₁.Balanced e₃ := by
  intro hm
  obtain ⟨hm₂, hc₂⟩ := h hm
  obtain ⟨hm₃, hc₃⟩ := h' hm₂
  exact ⟨hm₃, fun cached plain hc => hc₃ cached plain (hc₂ cached plain hc)⟩

/-- **What faces inward holds nothing.** -/
theorem of_inward {ep ep' : Ep} (h : ep.Inward ep') : ep.Balanced ep' := by
  refine of_eq h.cfg h.txInflight h.holds h.domain ?_
  unfold Ep.ringHeld
  rw [h.peers]

/-- A record is written back, holding what it held. -/
theorem setPeer {ep : Ep} {p q : Peer} (h : rdsPeerFind ep q.addr = some p)
    (hq : q.mrHandles = p.mrHandles) : ep.Balanced (ep.setPeer q) :=
  of_eq rfl rfl rfl rfl (Ep.ringHeld_setPeer h hq)

/-- **A failed send holds nothing**, and its peers hold their rings. -/
theorem sendQuiet {inp : RingInput} {ep ep' : Ep} (h : ep.SendQuiet inp ep') :
    ep.Balanced ep' := by
  have hholds : ep'.holds = ep.holds := by
    rw [h.eq]
    rfl
  intro hm
  refine ⟨hm.congr (by rw [h.eq]) (by rw [h.eq]) hholds, fun cached plain hc => ?_⟩
  unfold Ep.cachedHeld Ep.plainHeld at hc ⊢
  rw [hholds, add_assoc]
  rw [add_assoc] at hc
  exact h.regs _ _ hc

/-- **Handing over a message holds nothing.** -/
theorem ships {inp : RingInput} {ep ep' : Ep} {destAddr : UInt64} {op : UInt8} {d : Dgram}
    {payload : List UInt8} (h : ep.Ships inp ep' destAddr op d payload) : ep.Balanced ep' := by
  obtain ⟨e, hquiet, rfl⟩ | ⟨-, e, p, flags, tag, data, hquiet, -, -, -, -, hheld, heq, -⟩ := h
  · exact (sendQuiet hquiet.sendQuiet).trans (of_eq rfl rfl rfl rfl rfl)
  · refine (sendQuiet hquiet.sendQuiet).trans (of_eq ?_ ?_ ?_ ?_ hheld)
    · rw [heq]
    · rw [heq]
    · rw [heq]
      rfl
    · rw [heq]

/-- **A request that goes out**: its send holds the source. -/
theorem requests {inp : RingInput} {ep e₁ e₂ : Ep} {destAddr : UInt64} {op : UInt8} {d : Dgram}
    {payload : List UInt8} {p : Pending} (htype : p.type = .rndzvTx)
    (hroom : ep.rndzvTxInflight.toNat < ep.cfg.rndzvMaxInflight)
    (hreg : ep.Registered e₁ p.cached p.mrs)
    (hships : e₁.Ships inp e₂ destAddr op d payload) : ep.Balanced (e₂.withTx p) := by
  intro hm
  have hhold : p.hold = some (p.type, p.cached, p.mrs) := if_pos (.inl htype)
  have hm₁ : e₁.Metered := by
    refine hm.congr ?_ ?_ ?_
    · rw [hreg.eq]
    · rw [hreg.eq]
    · rw [hreg.eq]
      rfl
  obtain ⟨hm₂, hc₂⟩ := ships hships hm₁
  have hholds : (e₂.withTx p).holds = e₂.holds ++ [(p.type, p.cached, p.mrs)] := by
    show (e₂.pending ++ [p]).filterMap Pending.hold = _
    rw [List.filterMap_append, List.filterMap_cons_some hhold]
    rfl
  -- the counter and the bound are those the send met
  have hlength : e₂.holds.length < e₂.cfg.rndzvMaxInflight := by
    have hcfg : e₂.cfg = ep.cfg ∧ e₂.holds.length = ep.holds.length := by
      obtain ⟨e, hquiet, rfl⟩ | ⟨-, e, q, flags, tag, data, hquiet, -, -, -, -, -, heq, -⟩ := hships
      · rw [hquiet.eq, hreg.eq]
        exact ⟨rfl, rfl⟩
      · rw [heq, hquiet.eq, hreg.eq]
        exact ⟨rfl, rfl⟩
    rw [hcfg.1, hcfg.2, ← hm.inflight]
    exact hroom
  refine ⟨⟨fun h hh => ?_, ?_, ?_, hm₂.max⟩, fun cached plain hc => ?_⟩
  · rw [hholds] at hh
    obtain hh | hh := List.mem_append.mp hh
    · exact hm₂.sends h hh
    · rw [List.mem_singleton.mp hh]
      exact htype
  · have hmax := hm₂.max
    show (e₂.rndzvTxInflight + 1).toNat = _
    rw [hholds, List.length_append, UInt32.toNat_add, hm₂.inflight]
    exact Nat.mod_eq_of_lt (lt_of_le_of_lt hlength hmax)
  · rw [hholds, List.length_append]
    exact hlength
  · have hc₁ := hreg.regs _ _ hc
    have hheld₁ : e₁.cachedHeld = ep.cachedHeld ∧ e₁.plainHeld = ep.plainHeld := by
      rw [hreg.eq]
      exact ⟨rfl, rfl⟩
    rw [← hheld₁.1, ← hheld₁.2, add_left_comm, add_left_comm (plainPart p.cached p.mrs)] at hc₁
    have hc₂ := hc₂ _ _ hc₁
    unfold Ep.cachedHeld Ep.plainHeld at hc₂ ⊢
    rw [hholds, cachedSum_append, plainSum_append, cachedSum_cons, plainSum_cons]
    simp only [cachedSum, plainSum, List.map_nil, List.sum_nil, add_zero] at hc₂ ⊢
    rw [show (e₂.withTx p).ringHeld = e₂.ringHeld from rfl, add_assoc, add_assoc, add_assoc]
    rw [add_assoc] at hc₂
    exact hc₂

end Ep.Balanced

namespace Ep.Balanced

/-- **Completing a send gives back its source and its place**; completing a one-sided
operation gives back nothing, because it has nothing. -/
theorem complete {ep : Ep} {p q : Pending} (hfind : rdsPendingFind ep q.id = some p)
    (htype : q.type = p.type) (hmrs : q.mrs = p.mrs) (hcached : q.cached = p.cached) :
    ep.Balanced (rdsPendingComplete ep q) := by
  intro hm
  have hp : p ∈ ep.pending := List.mem_of_find?_eq_some hfind
  obtain ⟨l₁, l₂, hl, -, -, herase, -⟩ := List.find?_split hfind
  generalize hr : rdsPendingComplete ep q = r
  rw [rdsPendingComplete_eq] at hr
  have hcfg : r.cfg = ep.cfg := by rw [← hr]
  have hpeers : r.peers = ep.peers := by rw [← hr]
  have hpending : r.pending = ep.pending.eraseP (·.id == q.id) := by rw [← hr]
  have hdom : r.domain = rdsUnregChunks q.cached ep.domain q.mrs := by rw [← hr]
  have hin : r.rndzvTxInflight = if q.type = .rndzvTx ∧ ep.rndzvTxInflight ≠ 0 then
      ep.rndzvTxInflight - 1 else ep.rndzvTxInflight := by rw [← hr]
  rw [herase] at hpending
  rw [htype] at hin
  rw [hmrs, hcached] at hdom
  have hring : r.ringHeld = ep.ringHeld := by
    unfold Ep.ringHeld
    rw [hpeers]
  have hholds : ep.holds = l₁.filterMap Pending.hold ++ (p :: l₂).filterMap Pending.hold := by
    unfold Ep.holds
    rw [hl, List.filterMap_append]
  have hholds' : r.holds = l₁.filterMap Pending.hold ++ l₂.filterMap Pending.hold := by
    unfold Ep.holds
    rw [hpending, List.filterMap_append]
  by_cases hsend : p.type = .rndzvTx
  · have hhold : p.hold = some (p.type, p.cached, p.mrs) := if_pos (.inl hsend)
    rw [List.filterMap_cons_some hhold] at hholds
    have hlength : ep.holds.length = r.holds.length + 1 := by
      rw [hholds, hholds', List.length_append, List.length_append, List.length_cons]
      rfl
    have hcount := hm.inflight
    have hpos : ep.rndzvTxInflight ≠ 0 := by
      intro h0
      rw [h0, hlength] at hcount
      cases hcount
    rw [if_pos ⟨hsend, hpos⟩] at hin
    refine ⟨⟨fun h hh => hm.sends h ?_, ?_, ?_, hcfg ▸ hm.max⟩, fun cached plain hc => ?_⟩
    · rw [hholds'] at hh
      rw [hholds]
      obtain hh | hh := List.mem_append.mp hh
      · exact List.mem_append_left _ hh
      · exact List.mem_append_right _ (List.mem_cons_of_mem _ hh)
    · have hle : (1 : UInt32) ≤ ep.rndzvTxInflight := by
        rw [UInt32.le_iff_toNat_le]
        exact Nat.pos_of_ne_zero (fun h0 => hpos (UInt32.toNat_inj.mp h0))
      rw [hin, UInt32.toNat_sub_of_le _ _ hle, hcount, hlength]
      rfl
    · have hbound := hm.bound
      rw [hcfg]
      omega
    · rw [hdom]
      refine Domain.Custody.unregChunks p.cached p.mrs ?_
      unfold Ep.cachedHeld Ep.plainHeld at hc ⊢
      rw [hholds, cachedSum_append, plainSum_append, cachedSum_cons, plainSum_cons] at hc
      rw [hholds', hring, cachedSum_append, plainSum_append]
      convert hc using 1
      · abel
      · abel
  · -- an operation that is no send holds nothing
    have hnone := hm.hold_eq_none hp hsend
    rw [if_neg (fun h => hsend h.1)] at hin
    rw [Pending.mrs_eq_nil hnone] at hdom
    refine of_eq hcfg hin ?_ ?_ hring hm
    · rw [hholds, hholds', List.filterMap_cons_none hnone]
    · rw [hdom]
      unfold rdsUnregChunks
      rfl

/-! ### Notifications -/

theorem handleRdmaNotify (env : Env) (ep : Ep) (token : UInt64) (status : ℤ) :
    ep.Balanced (rdsHandleRdmaNotify env ep token status) := by
  intro hm
  have hlog (p : Pending) : ep.Inward { ep with trace := ep.trace ++ p.acks status } := .of_eq rfl
  refine rdsHandleRdmaNotify_elim (refl ep hm) (fun p n hfind _ => ?_) (fun p hfind _ => ?_)
    (fun p hfind htype => ?_)
  · exact of_inward ((hlog p).trans (.storePending hfind rfl)) hm
  · exact ((of_inward (hlog p)).trans (complete (q := { p with
      error := (p.heed status).error, segRemaining := p.segRemaining - 1 }) hfind rfl rfl rfl)) hm
  · have hnone : p.hold = none :=
      hm.hold_eq_none (List.mem_of_find?_eq_some hfind) (by rw [htype]; decide)
    have hfinal := Ep.Inward.finalize env { ep with trace := ep.trace ++ p.acks status } { p with
      error := (p.heed status).error, segRemaining := p.segRemaining - 1 }
    refine of_inward ((hlog p).trans (hfinal.trans (.unlinkPending (p := p) ?_ hnone))) hm
    unfold rdsPendingFind
    rw [(Ep.Fixed.finalize env _ _).pending]
    exact hfind

/-! ### Messages -/

theorem handleInbound (env : Env) (ep : Ep) (hdr : Hdr) (payload : List UInt8) (src : SockAddr)
    (srcFi : UInt64) : ep.Balanced (rdsHandleInbound env ep hdr payload src srcFi) := by
  refine rdsHandleInbound_elim (refl ep) (fun p hfind _ => complete hfind rfl rfl rfl)
    (fun _ _ => ?_) (fun _ _ => of_inward (.handleMessage env ep _))
  have hquiet : ep.RingQuiet .any (rdsRingHandleCtrl env ep hdr payload srcFi) :=
    rdsRingHandleCtrl_quiet env ep hdr payload srcFi (fun _ _ => trivial)
  exact sendQuiet hquiet.sendQuiet

theorem ringDeliver (env : Env) (ep : Ep) (sa : SockAddr) (addr : UInt64) (slot : RingSlot) :
    ep.Balanced (rdsRingDeliver env ep sa addr slot) := by
  exact rdsRingDeliver_elim (refl ep) (fun hdr payload => handleInbound env ep hdr payload sa addr)

theorem recvDgram (env : Env) (ep : Ep) (src : SockAddr) (bytes : List UInt8) :
    ep.Balanced (rdsRecvDgram env ep src bytes) := by
  exact rdsRecvDgram_elim (refl ep) (handleInbound env ep _ _ src _)

theorem ringReturnCredit (env : Env) {ep : Ep} {p : Peer} (hp : rdsPeerFind ep p.addr = some p) :
    ep.Balanced (rdsRingReturnCredit env ep p) := by
  obtain ⟨-, h⟩ | ⟨-, h⟩ := rdsRingReturnCredit_cases env ep p
  · rw [h]
    refine of_eq rfl rfl rfl rfl ?_
    exact Ep.ringHeld_setPeer (q := { p with creditTx := p.rxHead }) hp rfl
  · rw [h]
    refine of_eq rfl rfl rfl rfl ?_
    exact Ep.ringHeld_setPeer
      (q := { p with creditTx := p.rxHead, rxCreditSent := p.rxHead }) hp rfl

theorem ringPollSlot (env : Env) (ep : Ep) (addr : UInt64) :
    ep.Balanced ((rdsRingPollSlot env ep addr).getD ep) := by
  obtain ⟨hnone, -⟩ | ⟨p, slot, -, hp, hnext, -⟩ := rdsRingPollSlot_cases env ep addr
  · rw [hnone]
    exact refl ep
  obtain ⟨e, q, he, -, -, hq, -, h⟩ := rdsRingPollSlot_ring env hp hnext
    (fun op i _ _ => RingInput.any_hears addr op i)
  have haddr : p.addr = addr := rdsPeerFind_addr hp
  have hqaddr : q.addr = addr := rdsPeerFind_addr hq
  have hsteady := Peer.Steady.absorbAck p slot.ack
  have habsorb : ep.Balanced (ep.setPeer (p.absorbAck slot.ack)) := by
    refine setPeer (p := p) (by rw [hsteady.addr, haddr]; exact hp) ?_
    unfold Peer.mrHandles
    rw [hsteady.rxRingMr, hsteady.creditMr]
  have hdeliver : ep.Balanced e := habsorb.trans (he ▸ ringDeliver env _ p.sa p.addr slot)
  rw [← hqaddr] at hq
  have hconsume : ep.Balanced (e.setPeer { q with rxHead := q.rxHead + 1 }) :=
    hdeliver.trans (setPeer (q := { q with rxHead := q.rxHead + 1 }) hq rfl)
  rw [h, Option.getD_some]
  split
  · refine hconsume.trans (ringReturnCredit env ?_)
    rw [rdsPeerFind_setPeer (q := { q with rxHead := q.rxHead + 1 }) hq]
    exact Function.update_self _ _ _
  · exact hconsume

theorem ringFlushCredit (env : Env) (ep : Ep) (addr : UInt64) :
    ep.Balanced (rdsRingFlushCredit env ep addr) := by
  exact rdsRingFlushCredit_elim (refl ep)
    (fun p hp => ringReturnCredit env (by rw [rdsPeerFind_addr hp]; exact hp))

/-- Something lands in the memory kept for a peer. -/
theorem updPeer (ep : Ep) (addr : UInt64) {f : Peer → Peer}
    (hf : ∀ p, (f p).mrHandles = p.mrHandles) : ep.Balanced (ep.updPeer addr f) := by
  refine of_eq rfl rfl rfl rfl ?_
  have hmap : ∀ l : List Peer, (l.modifyFirst (·.addr == addr) f).flatMap Peer.mrHandles
      = l.flatMap Peer.mrHandles := by
    intro l
    induction l with
    | nil => rfl
    | cons p l ih =>
      rw [List.modifyFirst]
      split
      · rw [List.flatMap_cons, List.flatMap_cons, hf]
      · rw [List.flatMap_cons, List.flatMap_cons, ih]
  unfold Ep.ringHeld Ep.updPeer
  rw [hmap]

/-! ### Sends -/

theorem genericSend (env : Env) (ep : Ep) (iov : List Iovec) (destAddr tag data : UInt64)
    (context : ℕ) (flags : UInt64) (tagged : Bool) :
    ep.Balanced (rdsGenericSend env ep iov destAddr tag data context flags tagged).1 := by
  obtain ⟨-, hquiet⟩ | ⟨-, -, dest, e, -, hships, heq⟩
    | ⟨-, -, dest, e₁, e₂, genComp, segs, mrs, -, -, hroom, hreg, hships, heq⟩ :=
    rdsGenericSend_effects env ep iov destAddr tag data context flags tagged
      (fun _ => RingInput.any_expires destAddr) rfl
  · exact sendQuiet hquiet
  · rw [heq]
    exact (ships hships).trans (of_eq rfl rfl rfl rfl rfl)
  · rw [heq]
    exact requests rfl hroom hreg hships

theorem genericInject (env : Env) (ep : Ep) (buf len : ℕ) (destAddr tag : UInt64)
    (tagged : Bool) : ep.Balanced (rdsGenericInject env ep buf len destAddr tag tagged).1 := by
  obtain ⟨-, hquiet⟩ | ⟨-, -, dest, e, -, hships, heq⟩ :=
    rdsGenericInject_effects env ep buf len destAddr tag tagged
      (fun _ => RingInput.any_expires destAddr) rfl
  · exact sendQuiet hquiet
  · rw [heq]
    exact (ships hships).trans (of_eq rfl rfl rfl rfl rfl)

end Ep.Balanced

/-! ## Retries -/

/-- The operations that parked reads name hold nothing. -/
def Ep.ReadsIdle (ep : Ep) : Prop :=
  ∀ d ∈ ep.deferred, ∀ id, d.readId? = some id → ∀ p ∈ ep.pending, p.id = id → p.hold = none

/-- **Until the ids wrap, parked reads name receives**, and those hold nothing. -/
theorem Ep.Sound.readsIdle {ep : Ep} (h : ep.Sound) (hm : ep.Metered) : ep.ReadsIdle := by
  intro d hd id hid p hp hpid
  have howner := h.ok.parkedOwner_eq (p := p) hd hp (by rw [hpid]; exact hid)
  obtain ⟨_, _, _, _, htype⟩ := howner
  exact hm.hold_eq_none hp (by rw [htype]; decide)

/-- Finalizing a receive parks at most its `FIN`. -/
theorem deferred_finalize (env : Env) (ep : Ep) (p : Pending) :
    (rdsRndzvRxFinalize env ep p).deferred = ep.deferred
      ∨ (rdsRndzvRxFinalize env ep p).deferred = ep.deferred ++ [.fin p.peer p.peerId] := by
  obtain ⟨e, cqes, hout, heq, -⟩ := rdsRndzvRxFinalize_cases env ep p
  have hdeferred : (rdsRndzvRxFinalize env ep p).deferred
      = (rdsSendFin env ep p.peer p.peerId).deferred := by
    rw [heq]
    exact hout.deferred
  rw [hdeferred]
  obtain h | h | ⟨-, t, h⟩ := rdsSendFin_cases env ep p.peer p.peerId
  · rw [h]
    exact .inl rfl
  · rw [h]
    exact .inr rfl
  · rw [h]
    exact .inl rfl

namespace Ep.Inward

/-- Retrying a parked operation. What it may append to the queue is a `FIN`, and the
operations it leaves pending hold what they held. -/
theorem retryDeferred (env : Env) (ep : Ep) (d : Deferred)
    (hidle : ∀ id, d.readId? = some id → ∀ p ∈ ep.pending, p.id = id → p.hold = none)
    {r : Ep × Bool} (hr : rdsRetryDeferred env ep d = r) :
    ep.Inward r.1 ∧ (∀ d' ∈ r.1.deferred, d' ∈ ep.deferred ∨ d'.readId? = none)
      ∧ ∀ q ∈ r.1.pending, q ∈ ep.pending
        ∨ ∃ p ∈ ep.pending, q.id = p.id ∧ q.hold = p.hold := by
  subst hr
  have hsame {e : Ep} (h : ep.Inward e) (hd : e.deferred = ep.deferred)
      (hp : e.pending = ep.pending) : ep.Inward e
        ∧ (∀ d' ∈ e.deferred, d' ∈ ep.deferred ∨ d'.readId? = none)
        ∧ ∀ q ∈ e.pending, q ∈ ep.pending ∨ ∃ p ∈ ep.pending, q.id = p.id ∧ q.hold = p.hold :=
    ⟨h, fun _ hd' => .inl (hd ▸ hd'), fun _ hq => .inl (hp ▸ hq)⟩
  refine rdsRetryDeferred_elim (fun peer id => hsame ⟨⟨rfl, rfl, rfl, [_], rfl, fun d hd =>
      ⟨peer, id, List.mem_singleton.mp hd⟩⟩, rfl, rfl, rfl⟩ rfl rfl)
    (fun _ => hsame (.of_eq rfl) rfl rfl) (fun _ _ => hsame (.of_eq rfl) rfl rfl)
    (fun _ => hsame (.of_eq rfl) rfl rfl) (fun p e q hfind hread hcases => ?_)
  have hnone : p.hold = none := by
    obtain ⟨peer, cookie, off, liov, rts, rfl⟩ := hread
    exact hidle p.id rfl p (List.mem_of_find?_eq_some hfind) rfl
  obtain ⟨he, hpending, hdeferred⟩ : ep.Inward e ∧ e.pending = ep.pending
      ∧ e.deferred = ep.deferred := by
    obtain ⟨t, op, rfl, -⟩ | ⟨t, err, rfl, -⟩ := hcases
    · exact ⟨.of_eq rfl, rfl, rfl⟩
    · exact ⟨.of_eq rfl, rfl, rfl⟩
  have hq : q.id = p.id ∧ q.hold = p.hold := by
    obtain ⟨t, op, -, rfl⟩ | ⟨t, err, -, rfl⟩ := hcases
    · exact ⟨rfl, rfl⟩
    · unfold Pending.fail
      split
      · exact ⟨rfl, rfl⟩
      · exact ⟨rfl, rfl⟩
  have hfind : rdsPendingFind e q.id = some p := by
    unfold rdsPendingFind
    rw [hpending, hq.1]
    exact hfind
  dsimp only
  split
  · have hfixed : (rdsRndzvRxFinalize env e q).pending = e.pending :=
      (Ep.Fixed.finalize env e q).pending
    refine ⟨he.trans ((finalize env e q).trans (.unlinkPending (p := p) ?_ hnone)),
      fun d' hd' => ?_, fun q' hq' => .inl ?_⟩
    · unfold rdsPendingFind
      rw [hfixed]
      exact hfind
    · have hd' : d' ∈ (rdsRndzvRxFinalize env e q).deferred := hd'
      rw [← hdeferred]
      obtain hfin | hfin := deferred_finalize env e q
      · exact .inl (hfin ▸ hd')
      · rw [hfin, List.mem_append, List.mem_singleton] at hd'
        obtain hd' | rfl := hd'
        · exact .inl hd'
        · exact .inr rfl
    · rw [← hpending, ← hfixed]
      exact List.eraseP_subset hq'
  · refine ⟨he.trans (.storePending hfind hq.2), fun d' hd' => .inl (hdeferred ▸ hd'),
      fun q' hq' => ?_⟩
    obtain ⟨l₁, l₂, hl, -, -, -, hmod⟩ := List.find?_split hfind
    have hq' : q' ∈ e.pending.modifyFirst (·.id == q.id) (fun _ => q) := hq'
    rw [hmod, List.mem_append, List.mem_cons] at hq'
    rw [← hpending, hl]
    obtain hq' | rfl | hq' := hq'
    · exact .inl (List.mem_append_left _ hq')
    · exact .inr ⟨p, List.mem_append_right _ List.mem_cons_self, hq⟩
    · exact .inl (List.mem_append_right _ (List.mem_cons_of_mem _ hq'))

/-- **The walk of the deferred queue.** -/
theorem progressDeferred (env : Env) {ep : Ep} (hidle : ep.ReadsIdle) :
    ep.Inward (rdsProgressDeferred env ep).1 := by
  have hloop : ep.Inward (rdsProgressDeferredLoop env (2 * ep.deferred.length) [] ep).1
      ∧ (rdsProgressDeferredLoop env (2 * ep.deferred.length) [] ep).1.ReadsIdle := by
    refine rdsProgressDeferredLoop_keeps (P := fun e => ep.Inward e ∧ e.ReadsIdle)
      (fun e d todo htodo h => ?_) _ [] ⟨refl ep, hidle⟩
    have htake : e.Inward { e with deferred := todo } := of_eq rfl
    obtain ⟨hstep, hdeferred, hpending⟩ := retryDeferred env { e with deferred := todo } d
      (h.2 d (by rw [htodo]; exact List.mem_cons_self)) rfl
    refine ⟨(h.1.trans htake).trans hstep, fun d' hd' id hid q hq hqid => ?_⟩
    -- what is left of the queue was there before, and so were the operations
    obtain hd' | hnone := hdeferred d' hd'
    · have hd : d' ∈ e.deferred := by
        rw [htodo]
        exact List.mem_cons_of_mem d hd'
      obtain hq | ⟨p, hp, hpid, hold⟩ := hpending q hq
      · exact h.2 d' hd id hid q hq hqid
      · rw [hold]
        exact h.2 d' hd id hid p hp (hpid.symm.trans hqid)
    · rw [hnone] at hid
      cases hid
  exact hloop.1.trans (.of_eq rfl)

end Ep.Inward

/-! ## Every action -/

/-- **Every action is balanced**: any but a change of the domain by others, and a retry
while parked reads name operations that hold nothing. -/
theorem Ep.Balanced.act {ep : Ep} {a : EpAct} (hown : ∀ dom, a ≠ .shareDomain dom)
    (hidle : ∀ env, a = .retry env → ep.ReadsIdle) : ep.Balanced (ep.act a) := by
  cases a with
  | send env iov destAddr tag data context flags tagged =>
    exact genericSend env ep iov destAddr tag data context flags tagged
  | inject env buf len destAddr tag tagged => exact genericInject env ep buf len destAddr tag tagged
  | postRecv env iov addr tag ignore context flags tagged =>
    exact of_inward (.postRecv env ep iov addr tag ignore context flags tagged)
  | cancel context => exact of_inward (.cancel ep context)
  | rma env iov remoteFi remoteOff key isWrite context flags =>
    exact of_inward (.startsRma
      (rdsRmaCommon_starts env ep iov remoteFi remoteOff key isWrite context flags))
  | injectWrite env buf len destAddr addr key =>
    exact of_inward (.startsRma (rdsInjectWrite_starts env ep buf len destAddr addr key))
  | recv env src bytes => exact recvDgram env ep src bytes
  | notify env op status =>
    have herase : ep.Inward { ep with inflight := ep.inflight.erase op } := .of_eq rfl
    exact (of_inward herase).trans (handleRdmaNotify env _ op.token status)
  | retry env => exact of_inward (.progressDeferred env (hidle env rfl))
  | poll env addr => exact ringPollSlot env ep addr
  | flush env addr => exact ringFlushCredit env ep addr
  | landSlot addr idx slot => exact updPeer ep addr (fun _ => rfl)
  | landCredit addr value => exact updPeer ep addr (fun _ => rfl)
  | shareDomain dom => exact absurd rfl (hown dom)
