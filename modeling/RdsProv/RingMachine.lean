import RdsProv.SendEffects

/-!
# Every action follows the rules of the ring

An action of an endpoint brings in what it brings in: a datagram or a polled slot may
be a handshake, a send may find that a deadline has passed, slots and credit land.
`Ep.ringInput` says which, and `Ep.act_ring` puts every action under the rules of the
ring book with that input. Whatever the rules keep is therefore kept by every run.
Only a poll takes slots: `Ep.act_calm` says so, and `Ep.ringPollSlot_stages` when it does.
-/

/-- What an action brings in for the ring. -/
def Ep.ringInput (ep : Ep) (act : EpAct) : RingInput where
  hears a op i := match act with
    | .recv _ src bytes => (⟨src, ep.cfg.self, bytes⟩ : Dgram).ctrl? = some (op, i)
        ∧ ofiIpAvGetFiAddr ep.cfg src = a ∧ a ≠ fiAddrNotavail
    | .poll _ addr => addr = a ∧ ∃ p slot, rdsPeerFind ep addr = some p
        ∧ p.nextSlot ep.cfg.geom.slots = some slot ∧ slot.ctrl? = some (op, i)
    | _ => False
  expires a := match act with
    | .send _ _ dest _ _ _ _ _ => dest = a
    | .inject _ _ _ dest _ _ => dest = a
    | _ => False
  lands a idx slot := match act with
    | .landSlot addr idx' slot' => addr = a ∧ idx' = idx ∧ slot' = slot
    | _ => False
  credits a v := match act with
    | .landCredit addr v' => addr = a ∧ v' = v
    | _ => False

/-- What an action brings in, if a deadline passes only where a call may find the
handshake overdue. -/
def Ep.ringInputDue (ep : Ep) (act : EpAct) : RingInput :=
  { ep.ringInput act with
    expires := fun a => match act with
      | .send env _ dest _ _ _ _ _ => dest = a ∧ ep.Overdue env a
      | .inject env _ _ dest _ _ => dest = a ∧ ep.Overdue env a
      | _ => False }

/-! ## More input allows more -/

namespace RingBook

variable {cfg : EpCfg} {inp inp' : RingInput} {b b' : RingBook}

/-- If no more is heard and landed, only deadlines matter. -/
theorem Rule.mono (h : Rule cfg inp b b') (hhears : inp.hears = inp'.hears)
    (hlands : inp.lands = inp'.lands) (hcredits : inp.credits = inp'.credits)
    (hexpires : ∀ a, inp.expires a → inp'.expires a) : Rule cfg inp' b b' := by
  cases h with
  | quiet h =>
    refine .quiet ?_
    cases h with
    | create hnone hsa hp => exact .create hnone hsa hp
    | kick hp hstate hctrl => exact .kick hp hstate hctrl
    | expire hp hstate hin => exact .expire hp hstate (hexpires _ hin)
    | refuse hp hin hstate hring hcredit hgeom =>
      exact .refuse hp (hhears ▸ hin) hstate hring hcredit hgeom
    | adopt hp hin hstate hring hcredit hslots hsize hctrl =>
      exact .adopt hp (hhears ▸ hin) hstate hring hcredit hslots hsize hctrl
    | refresh hp hstate => exact .refresh hp hstate
    | stage hp hstate hfull => exact .stage hp hstate hfull
  | place hp hstate hfull hlen hctrl => exact .place hp hstate hfull hlen hctrl
  | absorb hp hnext => exact .absorb hp hnext
  | consume hp hnext => exact .consume hp hnext
  | withhold hp => exact .withhold hp
  | credit hp => exact .credit hp
  | land hp hin => exact .land hp (hlands ▸ hin)
  | landCredit hp hin => exact .landCredit hp (hcredits ▸ hin)

end RingBook

/-! ## Slots are not handshakes -/

/-- A slot with an eager message is none. -/
theorem Peer.ctrl?_fillSlot_eager (p : Peer) (flags : UInt8) (tag data : UInt64)
    (payload : List UInt8) : (p.fillSlot rdsOpEager flags tag data payload).ctrl? = none :=
  if_pos (.inl rfl)

/-- A slot with a request is none: it is read as the request that was written. -/
theorem Peer.ctrl?_fillSlot_hdr (p : Peer) (op flags : UInt8) (tag data : UInt64) {hdr : Hdr}
    (hop : hdr.op ≠ rdsOpRingReq ∧ hdr.op ≠ rdsOpRingAck) (rest : List UInt8) :
    (p.fillSlot op flags tag data (hdr.encode ++ rest)).ctrl? = none := by
  unfold RingSlot.ctrl?
  split
  · rfl
  · rename_i hguard
    have hlen := not_lt.mp (not_or.mp hguard).2
    have htake : ((p.fillSlot op flags tag data (hdr.encode ++ rest)).payload.take
        (p.fillSlot op flags tag data (hdr.encode ++ rest)).len.toNat)
        = hdr.encode ++ rest.take ((p.fillSlot op flags tag data (hdr.encode ++ rest)).len.toNat
          - rdsHdrSize) := by
      show (hdr.encode ++ rest).take _ = _
      rw [List.take_append, List.take_of_length_le (by rw [Hdr.encode_length]; exact hlen),
        Hdr.encode_length]
    rw [htake, Hdr.decode_encode]
    exact Hdr.ctrl?_eq_none hop _

/-! ## Sends -/

namespace Ep

variable {inp : RingInput} {ep ep' : Ep}

/-- A placed slot follows the rules, if it is no handshake. -/
theorem RingPlaced.calms {dest : UInt64} {op : UInt8} {payload : List UInt8}
    (h : ep.RingPlaced inp ep' dest op payload) (hlen : payload.length ≤ ep.cfg.geom.payload)
    (hctrl : ∀ (p : Peer) flags tag data, (p.fillSlot op flags tag data payload).ctrl? = none) :
    ep'.cfg = ep.cfg ∧ RingBook.Calms ep.cfg inp ep.ringBook ep'.ringBook := by
  obtain ⟨e, p, flags, tag, data, hquiet, hp, -, hready, hfull, -, heq, hbook⟩ := h
  refine ⟨by rw [heq, ← hquiet.cfg], ?_⟩
  rw [hbook]
  exact hquiet.book.calms.tail ⟨.place hp hready hfull hlen (hctrl p flags tag data),
    RingBook.rxHead_put hp rfl rfl⟩

/-- A message that is handed over follows the rules, if it is no handshake. -/
theorem Ships.calms {destAddr : UInt64} {op : UInt8} {d : Dgram} {payload : List UInt8}
    (h : ep.Ships inp ep' destAddr op d payload) (hd : d.ctrl? = none)
    (hctrl : ∀ (p : Peer) flags tag data, (p.fillSlot op flags tag data payload).ctrl? = none) :
    ep'.cfg = ep.cfg ∧ RingBook.Calms ep.cfg inp ep.ringBook ep'.ringBook := by
  obtain ⟨e, hquiet, rfl⟩ | ⟨hlen, hplaced⟩ := h
  · refine ⟨hquiet.cfg, ?_⟩
    have hbook : ({ e with tick := e.tick + 1, wire := e.wire ++ [d] } : Ep).ringBook
        = e.ringBook := by
      unfold Ep.ringBook
      dsimp only
      rw [List.filterMap_append, List.filterMap_cons_none (by rw [hd]; rfl), List.filterMap_nil,
        List.append_nil]
      rfl
    rw [hbook]
    exact hquiet.book.calms
  · exact hplaced.calms hlen hctrl

theorem genericSend_calm (env : Env) (iov : List Iovec) (destAddr tag data : UInt64) (context : ℕ)
    (flags : UInt64) (tagged : Bool) (hin : ep.Overdue env destAddr → inp.expires destAddr) :
    (rdsGenericSend env ep iov destAddr tag data context flags tagged).1.cfg = ep.cfg
      ∧ RingBook.Calms ep.cfg inp ep.ringBook
        (rdsGenericSend env ep iov destAddr tag data context flags tagged).1.ringBook := by
  obtain ⟨-, hquiet⟩ | ⟨-, -, dest, e, -, hships, heq⟩
    | ⟨-, -, dest, e₁, e₂, genComp, segs, mrs, -, -, -, hreg, hships, heq⟩ :=
    rdsGenericSend_effects env ep iov destAddr tag data context flags tagged hin rfl
  · exact ⟨by rw [hquiet.eq], hquiet.book.calms⟩
  · rw [heq]
    refine hships.calms (Dgram.ctrl?_eq_none ?_)
      (fun p flags tag data => p.ctrl?_fillSlot_eager flags tag data _)
    rw [Dgram.hdr, Hdr.decode_encode]
    show rdsOpEager ≠ _ ∧ rdsOpEager ≠ _
    decide
  · rw [heq]
    have hop : (rtsHdr tagged flags (rdsNseg iov) tag data (ofiTotalIovLen iov)
        (succId ep.opId)).op ≠ rdsOpRingReq ∧ (rtsHdr tagged flags (rdsNseg iov) tag data
        (ofiTotalIovLen iov) (succId ep.opId)).op ≠ rdsOpRingAck := by
      show rdsOpRts ≠ _ ∧ rdsOpRts ≠ _
      decide
    have hcfg : e₁.cfg = ep.cfg := by rw [hreg.eq]
    have hcalms := hships.calms
      (Dgram.ctrl?_eq_none (by rw [Dgram.hdr, Hdr.decode_encode]; exact hop))
      (fun p flags tag data => p.ctrl?_fillSlot_hdr _ flags tag data hop _)
    rw [hcfg, hreg.ringBook] at hcalms
    exact hcalms

theorem genericInject_calm (env : Env) (buf len : ℕ) (destAddr tag : UInt64) (tagged : Bool)
    (hin : ep.Overdue env destAddr → inp.expires destAddr) :
    (rdsGenericInject env ep buf len destAddr tag tagged).1.cfg = ep.cfg
      ∧ RingBook.Calms ep.cfg inp ep.ringBook
        (rdsGenericInject env ep buf len destAddr tag tagged).1.ringBook := by
  obtain ⟨-, hquiet⟩ | ⟨-, -, dest, e, -, hships, heq⟩ :=
    rdsGenericInject_effects env ep buf len destAddr tag tagged hin rfl
  · exact ⟨by rw [hquiet.eq], hquiet.book.calms⟩
  · rw [heq]
    refine hships.calms (Dgram.ctrl?_eq_none ?_)
      (fun p flags tag data => p.ctrl?_fillSlot_eager flags tag data _)
    rw [Dgram.hdr, Hdr.decode_encode]
    show rdsOpEager ≠ _ ∧ rdsOpEager ≠ _
    decide

/-! ## Polls -/

/-- **The stages of a poll**: there is nothing to take; or the credit of the next slot is
absorbed, the slot is delivered, and taken, and credit may be returned. -/
theorem ringPollSlot_stages (env : Env) (addr : UInt64)
    (hin : ∀ p slot op i, rdsPeerFind ep addr = some p →
      p.nextSlot ep.cfg.geom.slots = some slot → slot.ctrl? = some (op, i) → inp.hears addr op i) :
    (rdsRingPollSlot env ep addr = none
        ∧ ∀ p, rdsPeerFind ep addr = some p → p.nextSlot ep.cfg.geom.slots = none)
      ∨ ∃ ep' p q slot b, rdsRingPollSlot env ep addr = some ep' ∧ ep'.cfg = ep.cfg
        ∧ rdsPeerFind ep addr = some p ∧ p.nextSlot ep.cfg.geom.slots = some slot
        ∧ RingBook.Quiets ep.cfg inp (ep.ringBook.put (p.absorbAck slot.ack)) b
        ∧ b.table addr = some q ∧ q.addr = addr ∧ q.nextSlot ep.cfg.geom.slots = some slot
        ∧ RingBook.Calms ep.cfg inp (b.put { q with rxHead := q.rxHead + 1 }) ep'.ringBook := by
  obtain hnone | ⟨p, slot, -, hp, hnext, -⟩ := rdsRingPollSlot_cases env ep addr
  · exact .inl hnone
  obtain ⟨e, q, -, hcfg, hquiets, hq, hsteady, h⟩ := rdsRingPollSlot_ring env hp hnext
    (fun op i hctrl _ => hin p slot op i hp hnext hctrl)
  have hqaddr : q.addr = addr := rdsPeerFind_addr hq
  have hq' : rdsPeerFind e q.addr = some q := by rw [hqaddr]; exact hq
  refine .inr ⟨_, p, q, slot, e.ringBook, h, ?_, hp, hnext, hquiets, hq, hqaddr,
    (hsteady.nextSlot _).trans hnext, ?_⟩
  · split
    · obtain ⟨-, hret⟩ | ⟨-, hret⟩ := rdsRingReturnCredit_cases env
        (e.setPeer { q with rxHead := q.rxHead + 1 }) { q with rxHead := q.rxHead + 1 }
      · rw [hret]
        exact hcfg
      · rw [hret]
        exact hcfg
    · exact hcfg
  · have hself : rdsPeerFind (e.setPeer { q with rxHead := q.rxHead + 1 }) q.addr
        = some { q with rxHead := q.rxHead + 1 } := by
      rw [rdsPeerFind_setPeer (q := { q with rxHead := q.rxHead + 1 }) hq']
      exact Function.update_self _ _ _
    rw [← Ep.ringBook_setPeer (q := { q with rxHead := q.rxHead + 1 }) hq']
    split
    · exact .single (rdsRingReturnCredit_calm env hself)
    · exact .refl

theorem ringPollSlot_ring (env : Env) (addr : UInt64)
    (hin : ∀ p slot op i, rdsPeerFind ep addr = some p →
      p.nextSlot ep.cfg.geom.slots = some slot → slot.ctrl? = some (op, i) → inp.hears addr op i) :
    ((rdsRingPollSlot env ep addr).getD ep).cfg = ep.cfg
      ∧ RingBook.Rules ep.cfg inp ep.ringBook ((rdsRingPollSlot env ep addr).getD ep).ringBook := by
  obtain ⟨hnone, -⟩ | ⟨ep', p, q, slot, b, hsome, hcfg, hp, hnext, hquiets, hq, hqaddr, hnext',
    hcalms⟩ := ringPollSlot_stages env addr hin
  · rw [hnone]
    exact ⟨rfl, .refl⟩
  rw [hsome]
  refine ⟨hcfg, ?_⟩
  have habsorb : RingBook.Rule ep.cfg inp ep.ringBook _ :=
    .absorb (by rw [rdsPeerFind_addr hp]; exact hp) hnext
  exact ((Relation.ReflTransGen.single habsorb).trans hquiets.rules).tail
    (.consume (by rw [hqaddr]; exact hq) hnext') |>.trans hcalms.rules

theorem ringFlushCredit_cfg (env : Env) (addr : UInt64) :
    (rdsRingFlushCredit env ep addr).cfg = ep.cfg := by
  refine rdsRingFlushCredit_elim rfl (fun p _ => ?_)
  obtain ⟨-, h⟩ | ⟨-, h⟩ := rdsRingReturnCredit_cases env ep p
  · rw [h]
    rfl
  · rw [h]
    rfl

/-! ## Landing -/

/-- Something lands in the memory kept for a peer. -/
theorem updPeer_calm (addr : UInt64) {f : Peer → Peer} (hf : ∀ p, (f p).addr = p.addr)
    (hhead : ∀ p, (f p).rxHead = p.rxHead)
    (hrule : ∀ p, rdsPeerFind ep addr = some p →
      RingBook.Rule ep.cfg inp ep.ringBook (ep.ringBook.put (f p))) :
    RingBook.Calms ep.cfg inp ep.ringBook (ep.updPeer addr f).ringBook := by
  have hbook : (ep.updPeer addr f).ringBook = { ep.ringBook with
      table := Function.update (rdsPeerFind ep) addr ((rdsPeerFind ep addr).map f) } := by
    unfold Ep.ringBook
    rw [rdsPeerFind_updPeer ep addr hf]
    rfl
  rw [hbook]
  cases hp : rdsPeerFind ep addr with
  | none =>
    have hsame : Function.update (rdsPeerFind ep) addr none = rdsPeerFind ep := by
      rw [← hp, Function.update_eq_self]
    rw [Option.map_none, hsame]
    exact .refl
  | some p =>
    have hcalm : RingBook.Calm ep.cfg inp ep.ringBook (ep.ringBook.put (f p)) :=
      ⟨hrule p hp, RingBook.rxHead_put (by rw [rdsPeerFind_addr hp]; exact hp) (hf p) (hhead p)⟩
    unfold RingBook.put at hcalm
    rw [hf p, rdsPeerFind_addr hp] at hcalm
    exact .single hcalm

/-! ## Every action -/

/-- **Every action but a poll follows calm rules of the ring**, with what it brings in. -/
theorem act_calm (ep : Ep) (a : EpAct) (hpoll : ∀ env addr, a ≠ .poll env addr) :
    (ep.act a).cfg = ep.cfg
      ∧ RingBook.Calms ep.cfg (ep.ringInputDue a) ep.ringBook (ep.act a).ringBook := by
  have hoff {e : Ep} (h : ep.OffRing e) : e.cfg = ep.cfg
      ∧ RingBook.Calms ep.cfg (ep.ringInputDue a) ep.ringBook e.ringBook :=
    ⟨h.cfg, h.ringBook ▸ .refl⟩
  cases a with
  | send env iov destAddr tag data context flags tagged =>
    exact genericSend_calm env iov destAddr tag data context flags tagged
      (fun hlate => ⟨rfl, hlate⟩)
  | inject env buf len destAddr tag tagged =>
    exact genericInject_calm env buf len destAddr tag tagged (fun hlate => ⟨rfl, hlate⟩)
  | postRecv env iov addr tag ignore context flags tagged =>
    exact hoff (Ep.Inward.postRecv env ep iov addr tag ignore context flags tagged).toOffRing
  | cancel context => exact hoff (Ep.Inward.cancel ep context).toOffRing
  | rma env iov remoteFi remoteOff key isWrite context flags =>
    exact hoff (Ep.Inward.startsRma
      (rdsRmaCommon_starts env ep iov remoteFi remoteOff key isWrite context flags)).toOffRing
  | injectWrite env buf len destAddr addr key =>
    exact hoff (Ep.Inward.startsRma
      (rdsInjectWrite_starts env ep buf len destAddr addr key)).toOffRing
  | recv env src bytes =>
    show (rdsRecvDgram env ep src bytes).cfg = ep.cfg ∧ RingBook.Calms _ _ _
      (rdsRecvDgram env ep src bytes).ringBook
    unfold rdsRecvDgram
    split
    · exact ⟨rfl, .refl⟩
    · rename_i hlen
      obtain ⟨hcfg, hquiets⟩ := rdsHandleInbound_quiets env ep (Hdr.decode bytes)
        (bytes.drop rdsHdrSize) src (ofiIpAvGetFiAddr ep.cfg src)
        (show ∀ op i, _ → _ → (ep.ringInputDue (.recv env src bytes)).hears _ op i from
          fun op i hctrl hknown => ⟨(if_neg hlen).trans hctrl, rfl, hknown⟩)
      exact ⟨hcfg, hquiets.calms⟩
  | notify env op status =>
    have herase : ep.OffRing { ep with inflight := ep.inflight.erase op } :=
      .of_eq rfl rfl rfl rfl
    exact hoff (herase.trans (.handleRdmaNotify env _ op.token status))
  | retry env => exact hoff (.progressDeferred env ep)
  | poll env addr => exact absurd rfl (hpoll env addr)
  | flush env addr => exact ⟨ringFlushCredit_cfg env addr, rdsRingFlushCredit_calms env ep addr⟩
  | landSlot addr idx slot =>
    refine ⟨rfl, updPeer_calm addr (fun _ => rfl) (fun _ => rfl) (fun p hp => ?_)⟩
    have haddr := rdsPeerFind_addr hp
    exact .land (by rw [haddr]; exact hp) ⟨haddr.symm, rfl, rfl⟩
  | landCredit addr value =>
    refine ⟨rfl, updPeer_calm addr (fun _ => rfl) (fun _ => rfl) (fun p hp => ?_)⟩
    have haddr := rdsPeerFind_addr hp
    exact .landCredit (by rw [haddr]; exact hp) ⟨haddr.symm, rfl⟩
  | shareDomain dom => exact ⟨rfl, .refl⟩

/-- **Every action follows the rules of the ring**, with what it brings in. -/
theorem act_ring_due (ep : Ep) (a : EpAct) :
    (ep.act a).cfg = ep.cfg
      ∧ RingBook.Rules ep.cfg (ep.ringInputDue a) ep.ringBook (ep.act a).ringBook := by
  by_cases hpoll : ∃ env addr, a = .poll env addr
  · obtain ⟨env, addr, rfl⟩ := hpoll
    exact ringPollSlot_ring env addr
      (fun p slot op i hp hnext hctrl => ⟨rfl, p, slot, hp, hnext, hctrl⟩)
  · obtain ⟨hcfg, hcalms⟩ := ep.act_calm a (fun env addr h => hpoll ⟨env, addr, h⟩)
    exact ⟨hcfg, hcalms.rules⟩

/-- The same, whenever deadlines pass. -/
theorem act_ring (ep : Ep) (a : EpAct) :
    (ep.act a).cfg = ep.cfg
      ∧ RingBook.Rules ep.cfg (ep.ringInput a) ep.ringBook (ep.act a).ringBook := by
  obtain ⟨hcfg, hrules⟩ := ep.act_ring_due a
  refine ⟨hcfg, Relation.ReflTransGen.mono (fun b b' hrule => ?_) _ _ hrules⟩
  refine hrule.mono rfl rfl rfl (fun addr hin => ?_)
  cases a with
  | send | inject => exact hin.1
  | postRecv | cancel | rma | injectWrite | recv | notify | retry | poll | flush | landSlot
  | landCredit | shareDomain => exact hin.elim

end Ep
