import RdsProv.RingRefine

/-!
# What a send does

A send ends in one of three ways. It fails, and then it has at most registered a
ring for a new peer, tried a handshake and drawn an id (`Ep.SendQuiet`). It hands
over an eager message, as a datagram or in a slot (`Ep.Ships`). Or it registers its
source (`Ep.Registered`), hands over a request in the same two ways, and is pending.
The two theorems of this file, `rdsGenericSend_effects` and
`rdsGenericInject_effects`, say so with all that is needed to derive what a
particular state component does.
-/

/-- **A send that failed**: peers may have been created, a handshake sent, an id
drawn. -/
structure Ep.SendQuiet (inp : RingInput) (ep ep' : Ep) : Prop where
  eq : ep' = { ep with
    peers := ep'.peers, domain := ep'.domain, tick := ep'.tick, wire := ep'.wire
    opId := ep'.opId, idsGiven := ep'.idsGiven }
  wire : ∃ l, ep'.wire = ep.wire ++ l
    ∧ ∀ d ∈ l, d.hdr.op = rdsOpRingReq ∨ d.hdr.op = rdsOpRingAck
  book : RingBook.Quiets ep.cfg inp ep.ringBook ep'.ringBook
  regs : ep.RingRegs ep'

theorem Ep.RingQuiet.sendQuiet {inp : RingInput} {ep ep' : Ep} (h : ep.RingQuiet inp ep') :
    ep.SendQuiet inp ep' where
  eq := by rw [h.eq]
  wire := h.wire
  book := h.book
  regs := h.regs

/-- **A source was registered** for a send, and perhaps an id drawn. -/
structure Ep.Registered (ep ep' : Ep) (isCached : Bool) (mrs : List ℕ) : Prop where
  eq : ep' = { ep with
    domain := ep'.domain, tick := ep'.tick, opId := ep'.opId, idsGiven := ep'.idsGiven }
  regs : ∀ cached plain, ep.domain.Custody False cached plain →
    ep'.domain.Custody False (cachedPart isCached mrs + cached) (plainPart isCached mrs + plain)

namespace Ep.Registered

variable {ep ep' : Ep} {isCached : Bool} {mrs : List ℕ}

theorem ringBook (h : ep.Registered ep' isCached mrs) : ep'.ringBook = ep.ringBook := by
  rw [h.eq]
  rfl

theorem ringHeld (h : ep.Registered ep' isCached mrs) : ep'.ringHeld = ep.ringHeld := by
  rw [h.eq]
  rfl

/-- **A registration that is released after quiet steps** leaves nothing behind. -/
theorem release {inp : RingInput} {e : Ep} (h : ep.Registered ep' isCached mrs)
    (hquiet : ep'.RingQuiet inp e) :
    ep.SendQuiet inp { e with domain := rdsUnregChunks isCached e.domain mrs } where
  eq := by
    rw [hquiet.eq, h.eq]
  wire := by
    obtain ⟨l, hl, hop⟩ := hquiet.wire
    refine ⟨l, ?_, hop⟩
    have hwire : ep'.wire = ep.wire := by rw [h.eq]
    rw [← hwire]
    exact hl
  book := by
    have hbook := hquiet.book
    rw [h.ringBook, h.eq] at hbook
    exact hbook
  regs := by
    intro cached plain hc
    have hheld := h.regs _ _ hc
    rw [← h.ringHeld, add_left_comm] at hheld
    have hafter := hquiet.regs _ _ hheld
    rw [add_left_comm] at hafter
    exact Domain.Custody.unregChunks isCached mrs hafter

end Ep.Registered

/-- **A message is handed over**: after a quiet step, as a datagram or, if it fits, in
a slot of the destination's ring. -/
def Ep.Ships (inp : RingInput) (ep ep' : Ep) (destAddr : UInt64) (op : UInt8) (d : Dgram)
    (payload : List UInt8) : Prop :=
  (∃ e, ep.RingQuiet inp e ∧ ep' = { e with tick := e.tick + 1, wire := e.wire ++ [d] })
    ∨ (payload.length ≤ ep.cfg.geom.payload ∧ ep.RingPlaced inp ep' destAddr op payload)

/-! ## The parts -/

/-- **A request is handed over and its send is pending, or what it held is released.** -/
theorem rdsSendRts_effects {inp : RingInput} (env : Env) {ep₀ ep : Ep} (p : Pending)
    (bytes : List UInt8) (dest : SockAddr) (destAddr : UInt64)
    (hin : ep.Overdue env destAddr → inp.expires destAddr)
    (hreg : ep₀.Registered ep p.cached p.mrs) {r : Ep × Ret}
    (hr : rdsSendRts env ep p bytes dest destAddr = r) :
    (r.2 ≠ .ok ∧ ep₀.SendQuiet inp r.1)
      ∨ (r.2 = .ok ∧ ∃ e, ep.Ships inp e destAddr rdsOpRts ⟨ep.cfg.self, dest, bytes⟩ bytes
        ∧ r.1 = e.withTx p) := by
  subst hr
  have hring {e : Ep} {err : ℕ+} (h : rdsRingSend env ep bytes destAddr 0 0 0 0 false false
      rdsOpRts = (e, .err err)) : ep.RingQuiet inp e := by
    obtain ⟨-, hquiet⟩ | ⟨hret, -⟩ := rdsRingSend_ring _ _ _ _ _ _ _ _ _ _ _ hin h
    · exact hquiet
    · cases hret
  refine rdsSendRts_elim (fun e err h => .inl ⟨nofun, hreg.release (hring h)⟩)
    (fun e err h => .inl ⟨nofun, hreg.release ((hring h).trans (.of_eq rfl))⟩) (fun e h => ?_)
    (fun e h => .inr ⟨rfl, _, .inl ⟨e, hring h, rfl⟩, rfl⟩)
  obtain ⟨hret, -⟩ | ⟨-, hlen, hplaced⟩ := rdsRingSend_ring _ _ _ _ _ _ _ _ _ _ _ hin h
  · exact absurd rfl hret
  · exact .inr ⟨rfl, e, .inr ⟨hlen, hplaced⟩, rfl⟩

/-- **A rendezvous send fails or its request is handed over.** -/
theorem rdsSendRndzv_effects {inp : RingInput} (env : Env) (ep : Ep) (iov : List Iovec)
    (dest : SockAddr) (tag data : UInt64) (context : ℕ) (flags : UInt64) (tagged genComp : Bool)
    (destAddr : UInt64) (hin : ep.Overdue env destAddr → inp.expires destAddr) {r : Ep × Ret}
    (hr : rdsSendRndzv env ep iov dest tag data context flags tagged genComp destAddr = r) :
    (r.2 ≠ .ok ∧ ep.SendQuiet inp r.1)
      ∨ (r.2 = .ok ∧ ∃ e₁ e₂ segs mrs, segs.length = rdsNseg iov
        ∧ ep.rndzvTxInflight.toNat < ep.cfg.rndzvMaxInflight
        ∧ ep.Registered e₁ ep.domain.cacheEnabled mrs
        ∧ e₁.Ships inp e₂ destAddr rdsOpRts ⟨ep.cfg.self, dest,
            (rtsHdr tagged flags (rdsNseg iov) tag data (ofiTotalIovLen iov)
              (succId ep.opId)).encode ++ encodeSegs segs⟩
            ((rtsHdr tagged flags (rdsNseg iov) tag data (ofiTotalIovLen iov)
              (succId ep.opId)).encode ++ encodeSegs segs)
        ∧ r.1 = e₂.withTx (txPending (succId ep.opId) context tagged genComp
            (ofiTotalIovLen iov) mrs ep.domain.cacheEnabled)) := by
  subst hr
  have hregs {dom segs mrs err} (h : rdsRegChunks env ep.cfg.sock ep.domain.cacheEnabled
      (chunksOf iov) ep.domain = (dom, segs, mrs, err)) {e : Ep} (he : e = { ep with
        domain := dom, tick := e.tick, opId := e.opId, idsGiven := e.idsGiven }) :
      ep.Registered e ep.domain.cacheEnabled mrs := by
    refine ⟨by rw [he], fun cached plain hc => ?_⟩
    have hregs := Domain.Custody.regChunks (show False → env.FreshLive from fun hf => hf.elim)
      ep.cfg.sock ep.domain.cacheEnabled (chunksOf iov) (fun hf => hf.elim) hc
      (fun hf => hf.elim)
    rw [h] at hregs
    rw [he]
    exact hregs
  refine rdsSendRndzv_elim
    (fun t err => .inl ⟨nofun, (Ep.RingQuiet.of_eq rfl : ep.RingQuiet inp _).sendQuiet⟩)
    (fun t dom segs mrs _ err h => .inl ⟨nofun,
      (hregs h (e := { ep with tick := t, domain := dom }) rfl).release (.refl _)⟩)
    (fun dom segs mrs h hlen _ hroom => ?_)
  set e₁ : Ep := { ep with
    tick := ep.tick + 3, domain := dom, opId := succId ep.opId, idsGiven := ep.idsGiven + 1 }
  have hreg₁ : ep.Registered e₁ ep.domain.cacheEnabled mrs := hregs h rfl
  have hin₁ : e₁.Overdue env destAddr → inp.expires destAddr := hin
  obtain hfail | ⟨hret, e₂, hships, heq⟩ := rdsSendRts_effects env (txPending (succId ep.opId)
    context tagged genComp (ofiTotalIovLen iov) mrs ep.domain.cacheEnabled) _ dest destAddr hin₁
    hreg₁ rfl
  · exact .inl hfail
  · exact .inr ⟨hret, e₁, e₂, segs, mrs, hlen, hroom, hreg₁, hships, heq⟩

/-! ## Sends -/

/-- **The ring is tried, and then a datagram.** -/
theorem eager_effects {inp : RingInput} {env : Env} {ep e : Ep} {iov : List Iovec}
    (dest : SockAddr) {destAddr tag data : UInt64} {context : ℕ} {flags : UInt64}
    {tagged genComp : Bool} {ret : Ret} (hin : ep.Overdue env destAddr → inp.expires destAddr)
    (h : rdsRingSend env ep (gather env.mem iov) destAddr tag data context flags tagged genComp
      rdsOpEager = (e, ret)) {r : Ep × Ret} (hr : r = (e, ret) ∨ (ret = .err fiEnosys
        ∧ r = rdsSendEager env e iov dest tag data context flags tagged genComp)) :
    (r.2 ≠ .ok ∧ ep.SendQuiet inp r.1)
      ∨ (r.2 = .ok ∧ ∃ e, ep.Ships inp e destAddr rdsOpEager ⟨ep.cfg.self, dest,
            (eagerHdr tagged flags tag data (ofiTotalIovLen iov)).encode ++ gather env.mem iov⟩
          (gather env.mem iov)
        ∧ r.1 = { e with txCq := r.1.txCq }) := by
  have hring := rdsRingSend_ring _ _ _ _ _ _ _ _ _ _ _ hin h
  obtain rfl | ⟨rfl, rfl⟩ := hr
  · obtain ⟨hfail, hquiet⟩ | ⟨hok, hlen, hplaced⟩ := hring
    · exact .inl ⟨hfail, hquiet.sendQuiet⟩
    · exact .inr ⟨hok, e, .inr ⟨hlen, hplaced⟩, rfl⟩
  · obtain ⟨-, hquiet⟩ | ⟨hok, -⟩ := hring
    · refine rdsSendEager_elim
        (fun _ _ _ _ _ => .inl ⟨nofun, (hquiet.trans (.of_eq rfl)).sendQuiet⟩)
        (.inr ⟨rfl, _, .inl ⟨e, hquiet, rfl⟩, ?_⟩)
      rw [hquiet.cfg]
    · cases hok

/-- **`rds_generic_send`** fails, hands over an eager message, or hands over a request
and is pending. -/
theorem rdsGenericSend_effects {inp : RingInput} (env : Env) (ep : Ep) (iov : List Iovec)
    (destAddr tag data : UInt64) (context : ℕ) (flags : UInt64) (tagged : Bool)
    (hin : ep.Overdue env destAddr → inp.expires destAddr) {r : Ep × Ret}
    (hr : rdsGenericSend env ep iov destAddr tag data context flags tagged = r) :
    (r.2 ≠ .ok ∧ ep.SendQuiet inp r.1)
      ∨ (r.2 = .ok ∧ ofiTotalIovLen iov ≤ ep.cfg.eagerLimit ∧ ∃ dest e,
        rdsAvAddr ep.cfg destAddr = some dest
        ∧ ep.Ships inp e destAddr rdsOpEager ⟨ep.cfg.self, dest,
            (eagerHdr tagged flags tag data (ofiTotalIovLen iov)).encode ++ gather env.mem iov⟩
          (ofiCopyFromIov env.mem (ofiTotalIovLen iov) iov 0)
        ∧ r.1 = { e with txCq := r.1.txCq })
      ∨ (r.2 = .ok ∧ ep.cfg.eagerLimit < ofiTotalIovLen iov
        ∧ ∃ dest e₁ e₂ genComp segs mrs, rdsAvAddr ep.cfg destAddr = some dest
          ∧ segs.length = rdsNseg iov
          ∧ ep.rndzvTxInflight.toNat < ep.cfg.rndzvMaxInflight
          ∧ ep.Registered e₁ ep.domain.cacheEnabled mrs
          ∧ e₁.Ships inp e₂ destAddr rdsOpRts ⟨ep.cfg.self, dest,
              (rtsHdr tagged flags (rdsNseg iov) tag data (ofiTotalIovLen iov)
                (succId ep.opId)).encode ++ encodeSegs segs⟩
              ((rtsHdr tagged flags (rdsNseg iov) tag data (ofiTotalIovLen iov)
                (succId ep.opId)).encode ++ encodeSegs segs)
          ∧ r.1 = e₂.withTx (txPending (succId ep.opId) context tagged genComp
              (ofiTotalIovLen iov) mrs ep.domain.cacheEnabled)) := by
  subst hr
  have hself : ep.SendQuiet inp ep := (Ep.RingQuiet.refl ep).sendQuiet
  rw [ofiCopyFromIov_eq]
  refine rdsGenericSend_elim (fun err => .inl ⟨nofun, hself⟩)
    (fun dest genComp e ret hdest _ _ hsmall h _ => ?_)
    (fun dest genComp e hdest _ _ hsmall h => ?_) (fun dest genComp _ hdest _ _ hbig => ?_)
  · obtain hfail | ⟨hret, e, hships, heq⟩ := eager_effects dest hin h (.inl rfl)
    · exact .inl hfail
    · exact .inr (.inl ⟨hret, hsmall, dest, e, hdest, hships, heq⟩)
  · obtain hfail | ⟨hret, e, hships, heq⟩ := eager_effects dest hin h (.inr ⟨rfl, rfl⟩)
    · exact .inl hfail
    · exact .inr (.inl ⟨hret, hsmall, dest, e, hdest, hships, heq⟩)
  · obtain hfail | ⟨hret, e₁, e₂, segs, mrs, hlen, hroom, hreg, hships, heq⟩ :=
      rdsSendRndzv_effects env ep iov dest tag data context flags tagged genComp destAddr hin rfl
    · exact .inl hfail
    · exact .inr (.inr ⟨hret, hbig, dest, e₁, e₂, genComp, segs, mrs, hdest, hlen, hroom, hreg,
        hships, heq⟩)

/-- **`rds_generic_inject`** fails or hands over an eager message. -/
theorem rdsGenericInject_effects {inp : RingInput} (env : Env) (ep : Ep) (buf len : ℕ)
    (destAddr tag : UInt64) (tagged : Bool) (hin : ep.Overdue env destAddr → inp.expires destAddr)
    {r : Ep × Ret}
    (hr : rdsGenericInject env ep buf len destAddr tag tagged = r) :
    (r.2 ≠ .ok ∧ ep.SendQuiet inp r.1)
      ∨ (r.2 = .ok ∧ len ≤ ep.cfg.eagerSize ∧ ∃ dest e, rdsAvAddr ep.cfg destAddr = some dest
        ∧ ep.Ships inp e destAddr rdsOpEager ⟨ep.cfg.self, dest,
            (eagerHdr tagged 0 tag 0 len).encode ++ gather env.mem [⟨buf, len⟩]⟩
          (ofiCopyFromIov env.mem len [⟨buf, len⟩] 0)
        ∧ r.1 = { e with txCq := r.1.txCq }) := by
  subst hr
  have hself : ep.SendQuiet inp ep := (Ep.RingQuiet.refl ep).sendQuiet
  have htotal := ofiTotalIovLen_single buf len
  rw [ofiCopyFromIov_single]
  refine rdsGenericInject_elim (fun _ => .inl ⟨nofun, hself⟩) (.inl ⟨nofun, hself⟩)
    (fun dest e ret hdest hlen h _ => ?_) (fun dest e hdest hlen h => ?_)
  · obtain hfail | ⟨hret, e, hships, heq⟩ := eager_effects dest hin h (.inl rfl)
    · exact .inl hfail
    · exact .inr ⟨hret, hlen, dest, e, hdest, htotal ▸ hships, heq⟩
  · obtain hfail | ⟨hret, e, hships, heq⟩ := eager_effects dest hin h (.inr ⟨rfl, rfl⟩)
    · exact .inl hfail
    · exact .inr ⟨hret, hlen, dest, e, hdest, htotal ▸ hships, heq⟩
