import RdsProv.Outcomes

/-!
# What the ring and the ways of sending can do

The rules of `RdsProv.Outcomes` for the functions of `rds_eager.c` and for the send path. A
message within the eager limit is tried on the ring and, if the ring does not apply, sent as a
datagram; one above it is registered and a request is shipped the same two ways.
-/

/-- A completion is written if it is asked for. -/
theorem ite_rdsCqWriteTx (ep : Ep) (genComp : Bool) (context : ℕ) (flags : UInt64) (len : ℕ) :
    (if genComp then rdsCqWriteTx ep context flags len 0 else ep)
      = { ep with
          txCq := ep.txCq ++ if genComp then txEntries ep.cfg context flags len 0 else [] } := by
  split
  · exact rdsCqWriteTx_eq ep context flags len 0
  · rw [List.append_nil]

section Outcomes

variable {env : Env} {ep : Ep}

/-! ## Peers -/

/-- **A peer is found, or created** unless the table is full, the address is unknown or there
is no memory. -/
@[elab_as_elim]
theorem rdsPeerGet_elim {addr : UInt64} {motive : Ep × Option Peer → Prop}
    (found : ∀ p, rdsPeerFind ep addr = some p → motive (ep, some p))
    (refused : rdsPeerFind ep addr = none →
      (ep.cfg.ringMaxPeers ≤ ep.peers.length ∨ rdsAvAddr ep.cfg addr = none) → motive (ep, none))
    (starved : rdsPeerFind ep addr = none → ¬ ep.cfg.ringMaxPeers ≤ ep.peers.length →
      ¬ env.AllocOk →
      motive ({ ep with tick := ep.tick + 4 }, none))
    (created : ∀ sa e p, rdsPeerFind ep addr = none →
      ¬ ep.cfg.ringMaxPeers ≤ ep.peers.length → rdsAvAddr ep.cfg addr = some sa →
      rdsPeerRegister env { ep with tick := ep.tick + 4 } (Peer.blank addr sa)
        (env.heap (ep.tick + 1)) (env.heap (ep.tick + 3)) = (e, p) →
      motive ({ e with peers := p :: e.peers }, some p)) :
    motive (rdsPeerGet env ep addr) := by
  unfold rdsPeerGet
  cases hfind : rdsPeerFind ep addr with
  | some p => exact found p hfind
  | none =>
    dsimp only
    unfold rdsPeerCreate
    split
    · exact refused hfind (.inl ‹_›)
    rename_i hroom
    cases hsa : rdsAvAddr ep.cfg addr with
    | none => exact refused hfind (.inr hsa)
    | some sa =>
      dsimp only
      split
      · exact created sa _ _ hfind hroom hsa rfl
      · rename_i halloc
        refine starved hfind hroom (fun hok => halloc ?_)
        rw [hok, hok, hok, hok]
        rfl

/-- A handshake is advertised only with a ring; the socket takes it or not. -/
@[elab_as_elim]
theorem rdsRingSendCtrl_elim {p : Peer} {op : UInt8} {motive : Ep → Prop} (unregistered : motive ep)
    (refused : motive { ep with tick := ep.tick + 1 })
    (sent : ∀ ring credit, p.rxRingMr = some ring → p.creditMr = some credit →
      motive { ep with
        tick := ep.tick + 1
        wire := ep.wire ++ [⟨ep.cfg.self, p.sa, (ctrlHdr op).encode ++ RingInfo.encode
          ⟨ring.cookie, credit.cookie, ep.cfg.geom.slots, ep.cfg.geom.slotSize⟩⟩] }) :
    motive (rdsRingSendCtrl env ep p op) := by
  unfold rdsRingSendCtrl
  split
  · rename_i ring credit hring hcredit
    dsimp only
    obtain ⟨-, h⟩ | ⟨_, _, -, -, h⟩ := ep.sendDgram_cases env p.sa
      ((ctrlHdr op).encode ++ RingInfo.encode
        ⟨ring.cookie, credit.cookie, ep.cfg.geom.slots, ep.cfg.geom.slotSize⟩)
    · rw [h]
      exact sent ring credit hring hcredit
    · rw [h]
      exact refused
  · exact unregistered

/-- A record that has adopted the other side's advertisement. -/
def Peer.adopted (p : Peer) (i : RingInfo) : Peer :=
  { p with
    state := .ready
    remRingCookie := i.ringCookie
    remCreditCookie := i.creditCookie
    remSlots := i.slots
    remSlotSize := i.slotSize }

/-- A handshake that is heard, by a peer with a ring. -/
structure Peer.Heeds (p : Peer) (payload : List UInt8) (srcFi : UInt64) : Prop where
  size : RingInfo.size ≤ payload.length
  known : srcFi ≠ fiAddrNotavail
  enabled : p.state ≠ .disabled
  rxRingMr : p.rxRingMr ≠ none
  creditMr : p.creditMr ≠ none

/-- **A handshake is passed over, or its geometry is refused or adopted**; an adopted request
is answered. -/
@[elab_as_elim]
theorem rdsRingHandleCtrl_elim {hdr : Hdr} {payload : List UInt8} {srcFi : UInt64}
    {motive : Ep → Prop} (ignored : motive ep)
    (unknown : ∀ e, rdsPeerGet env ep srcFi = (e, none) → motive e)
    (disabled : ∀ e p, rdsPeerGet env ep srcFi = (e, some p) → motive e)
    (refused : ∀ e p, rdsPeerGet env ep srcFi = (e, some p) → p.Heeds payload srcFi →
      ((RingInfo.decode payload).slots ≠ e.cfg.geom.slots
        ∨ (RingInfo.decode payload).slotSize ≠ e.cfg.geom.slotSize) →
      motive (e.setPeer { p with state := .disabled }))
    (adopted : ∀ e p, rdsPeerGet env ep srcFi = (e, some p) → p.Heeds payload srcFi →
      (RingInfo.decode payload).slots = e.cfg.geom.slots →
      (RingInfo.decode payload).slotSize = e.cfg.geom.slotSize →
      motive ((if hdr.op = rdsOpRingReq then rdsRingSendCtrl env e p rdsOpRingAck else e).setPeer
        (p.adopted (RingInfo.decode payload)))) :
    motive (rdsRingHandleCtrl env ep hdr payload srcFi) := by
  unfold rdsRingHandleCtrl
  split
  · exact ignored
  rename_i hguard
  simp only [not_or, not_lt] at hguard
  rcases hget : rdsPeerGet env ep srcFi with ⟨e, _ | p⟩
  · exact unknown e hget
  dsimp only
  split
  · exact disabled e p hget
  rename_i hlive
  simp only [not_or] at hlive
  have hheeds : p.Heeds payload srcFi :=
    ⟨hguard.2.1, hguard.2.2, hlive.1, hlive.2.1, hlive.2.2⟩
  unfold rdsRingAdopt
  split
  · rename_i hgeom
    split at hgeom
    · exact refused e p hget hheeds ‹_›
    · cases hgeom
  · rename_i hgeom
    split at hgeom
    · cases hgeom
    · rename_i hsame
      simp only [not_or, not_not] at hsame
      cases hgeom
      exact adopted e p hget hheeds hsame.1 hsame.2

/-! ## The ring -/

/-- **A handshake is kicked off or waited for, and given up after the deadline.** -/
@[elab_as_elim]
theorem rdsRingConnect_elim {p : Peer} {motive : Ep × Ret → Prop}
    (kicked : ∀ e q, p.state = .none → e = rdsRingSendCtrl env ep p rdsOpRingReq →
      q = { p with state := .connecting, connectStartMs := env.now e.tick } →
      motive (Ep.setPeer { e with tick := e.tick + 2 } q, .err fiEagain))
    (overrun : ∀ e q, p.state = .none → e = rdsRingSendCtrl env ep p rdsOpRingReq →
      q = { p with state := .connecting, connectStartMs := env.now e.tick } →
      rdsRingConnectTimeoutMs < env.now (e.tick + 1) - env.now e.tick →
      motive (Ep.setPeer { e with tick := e.tick + 2 } { q with state := .disabled },
        .err fiEnosys))
    (waits : p.state ≠ .none → motive (Ep.setPeer { ep with tick := ep.tick + 1 } p, .err fiEagain))
    (expired : p.state ≠ .none →
      rdsRingConnectTimeoutMs < env.now ep.tick - p.connectStartMs →
      motive (Ep.setPeer { ep with tick := ep.tick + 1 } { p with state := .disabled },
        .err fiEnosys)) :
    motive (rdsRingConnect env ep p) := by
  unfold rdsRingConnect
  by_cases hnone : p.state = .none
  · rw [if_pos hnone]
    dsimp only
    split
    · exact overrun _ _ hnone rfl rfl ‹_›
    · exact kicked _ _ hnone rfl rfl
  · rw [if_neg hnone]
    dsimp only
    split
    · exact expired hnone ‹_›
    · exact waits hnone

/-- A record whose next slot is staged and on its way. -/
def Peer.advance (p : Peer) (slot : RingSlot) : Peer :=
  { p with txStage := Function.update p.txStage p.txIdx slot, txHead := p.txHead + 1 }

/-- **A ring is full, or its next slot is staged** and the write of it is refused or posted. -/
@[elab_as_elim]
theorem rdsRingPlace_elim {p : Peer} {payload : List UInt8} {tag data : UInt64} {context : ℕ}
    {flags : UInt64} {tagged genComp : Bool} {op : UInt8} {motive : Ep × Ret → Prop}
    (full : ∀ q, q = p.refreshCredit → q.full = true → motive (ep.setPeer q, .err fiEagain))
    (refused : ∀ q slot e err, q = p.refreshCredit → q.full = false →
      slot = q.fillSlot op (rdsHdrFlags tagged flags) tag data payload →
      env.sendmsg ep.tick (.rdma (q.slotWrite slot)) = some e → sockRet e = .err err →
      motive (Ep.setPeer { ep with tick := ep.tick + 1 } (q.stage slot), .err err))
    (posted : ∀ q slot, q = p.refreshCredit → q.full = false →
      slot = q.fillSlot op (rdsHdrFlags tagged flags) tag data payload →
      motive ({ ep.setPeer (q.advance slot) with
        tick := ep.tick + 1
        writes := ep.writes ++ [q.slotWrite slot]
        txCq := ep.txCq ++ if genComp then
          txEntries ep.cfg context (txFlags tagged) payload.length 0 else [] }, .ok)) :
    motive (rdsRingPlace env ep p payload tag data context flags tagged genComp op) := by
  unfold rdsRingPlace
  dsimp only
  generalize hq : p.refreshCredit = q
  cases hfull : q.full with
  | true => exact full q hq.symm hfull
  | false =>
    generalize hslot : q.fillSlot op (rdsHdrFlags tagged flags) tag data payload = slot
    rw [if_neg Bool.false_ne_true]
    obtain ⟨hcnt, -⟩ | ⟨e, err, hsend, hret, h⟩ | ⟨-, hn, -⟩ | ⟨-, -, h⟩ :=
      rdsPostRdma_cases env ep (q.slotWrite slot)
    · exact absurd hcnt (show ¬ (1 = 0 ∨ rdsIovLimit < 1) by decide)
    · rw [h]
      exact refused q slot e err hq.symm hfull hslot.symm hsend hret
    · cases hn
    · rw [h]
      dsimp only
      rw [ite_rdsCqWriteTx]
      exact posted q slot hq.symm hfull hslot.symm

/-- **The ring does not apply to a message, or the destination's ring takes it, is out of use
or is set up first.** -/
@[elab_as_elim]
theorem rdsRingSend_elim {payload : List UInt8} {dest tag data : UInt64} {context : ℕ}
    {flags : UInt64} {tagged genComp : Bool} {op : UInt8} {motive : Ep × Ret → Prop}
    (inapplicable : (ep.cfg.eagerRdma = true → ep.cfg.geom.payload < payload.length) →
      motive (ep, .err fiEnosys))
    (unknown : ∀ e, rdsPeerGet env ep dest = (e, none) → motive (e, .err fiEnosys))
    (ready : ∀ e p, ep.cfg.eagerRdma = true → payload.length ≤ ep.cfg.geom.payload →
      rdsPeerGet env ep dest = (e, some p) → p.state = .ready →
      motive (rdsRingPlace env (e.touchPeer p) p payload tag data context flags tagged genComp op))
    (disabled : ∀ e p, rdsPeerGet env ep dest = (e, some p) → p.state = .disabled →
      motive (e.touchPeer p, .err fiEnosys))
    (connects : ∀ e p, rdsPeerGet env ep dest = (e, some p) → p.state ≠ .ready →
      p.state ≠ .disabled → motive (rdsRingConnect env (e.touchPeer p) p)) :
    motive (rdsRingSend env ep payload dest tag data context flags tagged genComp op) := by
  unfold rdsRingSend
  split
  · rename_i hoff
    exact inapplicable (fun hon => by simp [hon] at hoff)
  rename_i hon
  split
  · exact inapplicable (fun _ => ‹_›)
  rename_i hlen
  rcases hget : rdsPeerGet env ep dest with ⟨e, _ | p⟩
  · exact unknown e hget
  dsimp only
  split
  · exact ready e p (by simpa using hon) (not_lt.mp hlen) hget ‹_›
  rename_i hready
  split
  · exact disabled e p hget ‹_›
  · exact connects e p hget hready ‹_›

/-- Without a ring there is nothing to try. -/
theorem rdsRingSend_of_off (hoff : ep.cfg.eagerRdma = false) {payload : List UInt8}
    {dest tag data : UInt64} {context : ℕ} {flags : UInt64} {tagged genComp : Bool} {op : UInt8}
    {e : Ep} {ret : Ret}
    (h : rdsRingSend env ep payload dest tag data context flags tagged genComp op = (e, ret)) :
    e = ep ∧ ret = .err fiEnosys := by
  unfold rdsRingSend at h
  rw [if_pos (by rw [hoff]; rfl)] at h
  cases h
  exact ⟨rfl, rfl⟩

/-- The guards of a send are those of `rds_ring_send`. -/
theorem rdsRingSend_guard (env : Env) (ep : Ep) {payload : List UInt8} {n : ℕ}
    (hlen : payload.length = n) (dest tag data : UInt64) (context : ℕ) (flags : UInt64)
    (tagged genComp : Bool) (op : UInt8) :
    (if ep.cfg.eagerRdma ∧ n ≤ ep.cfg.geom.payload then
        rdsRingSend env ep payload dest tag data context flags tagged genComp op
      else (ep, .err fiEnosys))
      = rdsRingSend env ep payload dest tag data context flags tagged genComp op := by
  split
  · rfl
  rename_i hguard
  unfold rdsRingSend
  by_cases hon : ep.cfg.eagerRdma = true
  · rw [if_neg (by simp [hon]), if_pos (by rw [hlen]; exact not_le.mp (fun h => hguard ⟨hon, h⟩))]
  · rw [if_pos (by simpa using hon)]

theorem Ep.cfg_regInternal (env : Env) (ep : Ep) (r : Region) :
    (ep.regInternal env r).1.cfg = ep.cfg := by
  unfold Ep.regInternal
  split
  · rfl
  · rfl

theorem Ep.cfg_mrPut (ep : Ep) (mr : Option RdsMr) : (ep.mrPut mr).cfg = ep.cfg := by
  cases mr with
  | none => rfl
  | some mr => rfl

theorem cfg_rdsPeerGet (env : Env) (ep : Ep) (addr : UInt64) :
    (rdsPeerGet env ep addr).1.cfg = ep.cfg := by
  refine rdsPeerGet_elim (fun _ _ => rfl) (fun _ _ => rfl) (fun _ _ _ => rfl)
    (fun sa e p _ _ _ hreg => ?_)
  refine (congrArg (·.1.cfg) hreg).symm.trans ?_
  unfold rdsPeerRegister
  dsimp only
  split
  · rw [Ep.cfg_regInternal, Ep.cfg_regInternal]
  · rw [Ep.cfg_mrPut, Ep.cfg_mrPut, Ep.cfg_regInternal, Ep.cfg_regInternal]

/-- `rds_ring_send` leaves the configuration alone. -/
theorem cfg_rdsRingSend (env : Env) (ep : Ep) (payload : List UInt8) (dest tag data : UInt64)
    (context : ℕ) (flags : UInt64) (tagged genComp : Bool) (op : UInt8) :
    (rdsRingSend env ep payload dest tag data context flags tagged genComp op).1.cfg = ep.cfg := by
  have hget (e : Ep) {p? : Option Peer} (h : rdsPeerGet env ep dest = (e, p?)) : e.cfg = ep.cfg :=
    (congrArg (·.1.cfg) h).symm.trans (cfg_rdsPeerGet env ep dest)
  have hctrl (e : Ep) (p : Peer) : (rdsRingSendCtrl env e p rdsOpRingReq).cfg = e.cfg :=
    rdsRingSendCtrl_elim rfl rfl (fun _ _ _ _ => rfl)
  refine rdsRingSend_elim (fun _ => rfl) (fun e h => hget e h) (fun e p _ _ h _ => ?_)
    (fun e p h _ => hget e h) (fun e p h _ _ => ?_)
  · exact rdsRingPlace_elim (fun _ _ _ => hget e h) (fun _ _ _ _ _ _ _ _ _ => hget e h)
      (fun _ _ _ _ _ => hget e h)
  · refine rdsRingConnect_elim (fun e' q _ he' _ => ?_) (fun e' q _ he' _ _ => ?_)
      (fun _ => hget e h) (fun _ _ => hget e h)
    · exact he' ▸ (hctrl _ p).trans (hget e h)
    · exact he' ▸ (hctrl _ p).trans (hget e h)

/-! ## Sending -/

/-- **An eager datagram is refused, or sent and reported.** -/
@[elab_as_elim]
theorem rdsSendEager_elim {iov : List Iovec} {dest : SockAddr} {tag data : UInt64} {context : ℕ}
    {flags : UInt64} {tagged genComp : Bool} {motive : Ep × Ret → Prop}
    (refused : ∀ bytes e err, env.sendmsg ep.tick (.dgram dest bytes) = some e →
      sockRet e = .err err → motive ({ ep with tick := ep.tick + 1 }, .err err))
    (sent : motive ({ ep with
      tick := ep.tick + 1
      wire := ep.wire ++ [⟨ep.cfg.self, dest,
        (eagerHdr tagged flags tag data (ofiTotalIovLen iov)).encode ++ gather env.mem iov⟩]
      txCq := ep.txCq ++ if genComp then
        txEntries ep.cfg context (txFlags tagged) (ofiTotalIovLen iov) 0 else [] }, .ok)) :
    motive (rdsSendEager env ep iov dest tag data context flags tagged genComp) := by
  unfold rdsSendEager
  dsimp only
  obtain ⟨-, h⟩ | ⟨e, err, hsend, hret, h⟩ := ep.sendDgram_cases env dest
    ((eagerHdr tagged flags tag data (ofiTotalIovLen iov)).encode ++ gather env.mem iov)
  · rw [h]
    dsimp only
    rw [ite_rdsCqWriteTx]
    exact sent
  · rw [h]
    exact refused _ e err hsend hret

/-- The endpoint after a request was accepted: the send is pending. -/
def Ep.withTx (ep : Ep) (p : Pending) : Ep :=
  { ep with
    pending := ep.pending ++ [p]
    trace := ep.trace ++ [.txOpen p.id]
    rndzvTxInflight := ep.rndzvTxInflight + 1 }

/-- **A request goes over the ring or, if that does not apply, by datagram**, and its send is
pending; otherwise what the send held is released. -/
@[elab_as_elim]
theorem rdsSendRts_elim {p : Pending} {bytes : List UInt8} {dest : SockAddr} {destAddr : UInt64}
    {motive : Ep × Ret → Prop}
    (failed : ∀ e err, rdsRingSend env ep bytes destAddr 0 0 0 0 false false rdsOpRts
      = (e, .err err) → motive (rdsPendingReleaseMrs e p, .err err))
    (refused : ∀ e err, rdsRingSend env ep bytes destAddr 0 0 0 0 false false rdsOpRts
      = (e, .err fiEnosys) →
      motive (rdsPendingReleaseMrs { e with tick := e.tick + 1 } p, .err err))
    (ring : ∀ e, rdsRingSend env ep bytes destAddr 0 0 0 0 false false rdsOpRts = (e, .ok) →
      motive (e.withTx p, .ok))
    (dgram : ∀ e, rdsRingSend env ep bytes destAddr 0 0 0 0 false false rdsOpRts
      = (e, .err fiEnosys) → motive (Ep.withTx { e with
        tick := e.tick + 1, wire := e.wire ++ [⟨ep.cfg.self, dest, bytes⟩] } p, .ok)) :
    motive (rdsSendRts env ep p bytes dest destAddr) := by
  have hguard : (if ep.cfg.eagerRdma then
        rdsRingSend env ep bytes destAddr 0 0 0 0 false false rdsOpRts
      else (ep, .err fiEnosys))
      = rdsRingSend env ep bytes destAddr 0 0 0 0 false false rdsOpRts := by
    split
    · rfl
    · rename_i hoff
      unfold rdsRingSend
      rw [if_pos (by simpa using hoff)]
  have hcfg := cfg_rdsRingSend env ep bytes destAddr 0 0 0 0 false false rdsOpRts
  unfold rdsSendRts
  rw [hguard]
  rcases hring : rdsRingSend env ep bytes destAddr 0 0 0 0 false false rdsOpRts with ⟨e, _ | err⟩
  · exact ring e hring
  rw [hring] at hcfg
  dsimp only at hcfg ⊢
  by_cases hnosys : Ret.err err = .err fiEnosys
  · rw [if_pos hnosys]
    rw [hnosys] at hring
    obtain ⟨-, h⟩ | ⟨_, err', -, -, h⟩ := e.sendDgram_cases env dest bytes
    · rw [h]
      exact hcfg ▸ dgram e hring
    · rw [h]
      exact refused e err' hring
  · rw [if_neg hnosys]
    exact failed e err hring

/-- The record of a rendezvous send. -/
def txPending (id : UInt64) (context : ℕ) (tagged genComp : Bool) (total : ℕ)
    (mrs : List ℕ) (cached : Bool) : Pending :=
  { Pending.blank id .rndzvTx context (txFlags tagged) with
    len := total, mrs := mrs, cached := cached, noComp := !genComp }

/-- **A rendezvous send is refused, comes to nothing after the registrations, or makes a
request** that describes every chunk. -/
@[elab_as_elim]
theorem rdsSendRndzv_elim {iov : List Iovec} {dest : SockAddr} {tag data : UInt64} {context : ℕ}
    {flags : UInt64} {tagged genComp : Bool} {destAddr : UInt64} {motive : Ep × Ret → Prop}
    (refused : ∀ t err, motive ({ ep with tick := t }, .err err))
    (failed : ∀ t dom segs mrs err? err, rdsRegChunks env ep.cfg.sock ep.domain.cacheEnabled
      (chunksOf iov) ep.domain = (dom, segs, mrs, err?) → motive ({ ep with
        tick := t, domain := rdsUnregChunks ep.domain.cacheEnabled dom mrs }, .err err))
    (request : ∀ dom segs mrs, rdsRegChunks env ep.cfg.sock ep.domain.cacheEnabled
      (chunksOf iov) ep.domain = (dom, segs, mrs, none) → segs.length = rdsNseg iov →
      rdsNseg iov * rdsSegSize ≤ rdsMaxEagerSize →
      ep.rndzvTxInflight.toNat < ep.cfg.rndzvMaxInflight →
      motive (rdsSendRts env { ep with
          tick := ep.tick + 3
          domain := dom
          opId := succId ep.opId
          idsGiven := ep.idsGiven + 1 }
        (txPending (succId ep.opId) context tagged genComp (ofiTotalIovLen iov) mrs
          ep.domain.cacheEnabled)
        ((rtsHdr tagged flags (rdsNseg iov) tag data (ofiTotalIovLen iov)
          (succId ep.opId)).encode ++ encodeSegs segs) dest destAddr)) :
    motive (rdsSendRndzv env ep iov dest tag data context flags tagged genComp destAddr) := by
  unfold rdsSendRndzv Ep.malloc
  split
  · exact refused ep.tick _
  rename_i hroom
  dsimp only
  split
  · exact refused ep.tick _
  rename_i hsize
  split
  · exact refused _ _
  have hlen := length_rdsRegChunks env ep.cfg.sock ep.domain.cacheEnabled (chunksOf iov) ep.domain
  rcases hreg : rdsRegChunks env ep.cfg.sock ep.domain.cacheEnabled (chunksOf iov) ep.domain
    with ⟨dom, segs, mrs, _ | err⟩
  swap
  · exact failed _ dom segs mrs _ err hreg
  rw [hreg] at hlen
  dsimp only
  obtain ⟨-, h⟩ | h := rdsPendingAlloc_cases env
    { ep with tick := ep.tick + 1 + 1, domain := dom } .rndzvTx context (txFlags tagged)
  · rw [h]
    exact failed _ dom segs mrs _ _ hreg
  · rw [h]
    exact request dom segs mrs hreg ((hlen rfl).trans (length_chunksOf iov)) (not_lt.mp hsize)
      (not_le.mp hroom)

/-- The size up to which a message is sent eagerly. -/
def EpCfg.eagerLimit (cfg : EpCfg) : ℕ := if cfg.eagerRdma then cfg.geom.payload else cfg.eagerSize

/-- **`rds_generic_send`** refuses a call, tries the ring and then a datagram with a message
within the limit, and goes by rendezvous with one above it. -/
@[elab_as_elim]
theorem rdsGenericSend_elim {iov : List Iovec} {destAddr tag data : UInt64} {context : ℕ}
    {flags : UInt64} {tagged : Bool} {motive : Ep × Ret → Prop}
    (refused : ∀ err, motive (ep, .err err))
    (ring : ∀ dest genComp e ret, rdsAvAddr ep.cfg destAddr = some dest →
      genComp = hasFlag (ep.cfg.txOpFlags ||| flags) fiCompletion →
      ofiTotalIovLen iov ≤ rdsMaxMsgSize → ofiTotalIovLen iov ≤ ep.cfg.eagerLimit →
      rdsRingSend env ep (gather env.mem iov) destAddr tag data context flags tagged genComp
        rdsOpEager = (e, ret) → ret ≠ .err fiEnosys → motive (e, ret))
    (eager : ∀ dest genComp e, rdsAvAddr ep.cfg destAddr = some dest →
      genComp = hasFlag (ep.cfg.txOpFlags ||| flags) fiCompletion →
      ofiTotalIovLen iov ≤ rdsMaxMsgSize → ofiTotalIovLen iov ≤ ep.cfg.eagerLimit →
      rdsRingSend env ep (gather env.mem iov) destAddr tag data context flags tagged genComp
        rdsOpEager = (e, .err fiEnosys) →
      motive (rdsSendEager env e iov dest tag data context flags tagged genComp))
    (rndzv : ∀ dest genComp, iov.length ≤ rdsIovLimit → rdsAvAddr ep.cfg destAddr = some dest →
      genComp = hasFlag (ep.cfg.txOpFlags ||| flags) fiCompletion →
      ofiTotalIovLen iov ≤ rdsMaxMsgSize → ep.cfg.eagerLimit < ofiTotalIovLen iov →
      motive (rdsSendRndzv env ep iov dest tag data context flags tagged genComp destAddr)) :
    motive (rdsGenericSend env ep iov destAddr tag data context flags tagged) := by
  unfold rdsGenericSend
  split
  · exact refused _
  rename_i hcount
  dsimp only
  split
  · exact refused _
  rename_i hmax
  cases hdest : rdsAvAddr ep.cfg destAddr with
  | none => exact refused _
  | some dest =>
    generalize hgen : hasFlag (ep.cfg.txOpFlags ||| flags) fiCompletion = genComp
    dsimp only
    by_cases hsmall : ofiTotalIovLen iov ≤ ep.cfg.eagerLimit
    · rw [ofiCopyFromIov_eq, rdsRingSend_guard env ep (length_gather env.mem iov)]
      have hcfg := cfg_rdsRingSend env ep (gather env.mem iov) destAddr tag data context flags
        tagged genComp rdsOpEager
      rcases hring : rdsRingSend env ep (gather env.mem iov) destAddr tag data context flags tagged
        genComp rdsOpEager with ⟨e, ret⟩
      rw [hring] at hcfg
      dsimp only at hcfg ⊢
      split
      · exact ring dest genComp e ret hdest hgen.symm (not_lt.mp hmax) hsmall hring ‹_›
      · rename_i hnosys
        rw [not_not] at hnosys
        rw [hcfg]
        exact (if_pos hsmall).symm ▸
          eager dest genComp e hdest hgen.symm (not_lt.mp hmax) hsmall (hnosys ▸ hring)
    · have hlong : ¬ (ep.cfg.eagerRdma = true ∧ ofiTotalIovLen iov ≤ ep.cfg.geom.payload) :=
        fun h => hsmall (h.2.trans_eq (if_pos h.1).symm)
      rw [if_neg hlong]
      dsimp only
      rw [if_neg (not_not_intro rfl)]
      exact (if_neg hsmall).symm ▸
        rndzv dest genComp (not_lt.mp hcount) hdest hgen.symm (not_lt.mp hmax) (not_le.mp hsmall)

theorem ofiTotalIovLen_single (buf len : ℕ) : ofiTotalIovLen [⟨buf, len⟩] = len := by
  simp [ofiTotalIovLen]

theorem ofiCopyFromIov_single (mem : ℕ → UInt8) (buf len : ℕ) :
    ofiCopyFromIov mem len [⟨buf, len⟩] 0 = gather mem [⟨buf, len⟩] := by
  rw [← ofiCopyFromIov_eq, ofiTotalIovLen_single]

/-- **`rds_generic_inject`** refuses a call, or tries the ring and then a datagram. -/
@[elab_as_elim]
theorem rdsGenericInject_elim {buf len : ℕ} {destAddr tag : UInt64} {tagged : Bool}
    {motive : Ep × Ret → Prop} (tooLong : ep.cfg.eagerSize < len → motive (ep, .err fiEmsgsize))
    (unknown : motive (ep, .err fiEinval))
    (ring : ∀ dest e ret, rdsAvAddr ep.cfg destAddr = some dest → len ≤ ep.cfg.eagerSize →
      rdsRingSend env ep (gather env.mem [⟨buf, len⟩]) destAddr tag 0 0 0 tagged false rdsOpEager
        = (e, ret) → ret ≠ .err fiEnosys → motive (e, ret))
    (eager : ∀ dest e, rdsAvAddr ep.cfg destAddr = some dest → len ≤ ep.cfg.eagerSize →
      rdsRingSend env ep (gather env.mem [⟨buf, len⟩]) destAddr tag 0 0 0 tagged false rdsOpEager
        = (e, .err fiEnosys) →
      motive (rdsSendEager env e [⟨buf, len⟩] dest tag 0 0 0 tagged false)) :
    motive (rdsGenericInject env ep buf len destAddr tag tagged) := by
  unfold rdsGenericInject
  split
  · exact tooLong ‹_›
  rename_i hlen
  cases hdest : rdsAvAddr ep.cfg destAddr with
  | none => exact unknown
  | some dest =>
    dsimp only
    rw [ofiCopyFromIov_single, rdsRingSend_guard env ep
      ((length_gather env.mem _).trans (ofiTotalIovLen_single buf len))]
    rcases hring : rdsRingSend env ep (gather env.mem [⟨buf, len⟩]) destAddr tag 0 0 0 tagged false
      rdsOpEager with ⟨e, ret⟩
    dsimp only
    split
    · exact ring dest e ret hdest (not_lt.mp hlen) hring ‹_›
    · rename_i hnosys
      exact eager dest e hdest (not_lt.mp hlen) (not_not.mp hnosys ▸ hring)

end Outcomes
