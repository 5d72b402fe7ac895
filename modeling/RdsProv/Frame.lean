import RdsProv.SendOutcomes

/-!
# What a step leaves alone

Most of what an endpoint does is of no concern to the receive side: completions
are written, the peer table and the registrations change, eager messages and
handshakes go out. `Ep.Outer ep ep'` says that a step did only such things – the
matching lists, the pending and deferred operations, the reads in flight and the
history are as they were, and neither a request nor a `FIN` was sent.

The lemmas of this module put each such function under that relation, so that a
proof about the receive side never unfolds the ring or the registration code.
-/

/-- A fire-and-forget write that carries no control message. -/
def RdmaOp.Plain (w : RdmaOp) : Prop :=
  ∀ idx slot, w.loc = .stage idx slot → slot.op = rdsOpEager

/-- A header of neither a request nor a `FIN`. -/
def Hdr.Plain (hdr : Hdr) : Prop :=
  hdr.op = rdsOpEager ∨ hdr.op = rdsOpRingReq ∨ hdr.op = rdsOpRingAck

/-- **Only what faces outward changed**: completions, peers, registrations, and
what was sent apart from requests and `FIN`s. -/
structure Ep.Outer (ep ep' : Ep) : Prop where
  cfg : ep'.cfg = ep.cfg
  posted : ep'.posted = ep.posted
  unexp : ep'.unexp = ep.unexp
  pending : ep'.pending = ep.pending
  deferred : ep'.deferred = ep.deferred
  txInflight : ep'.rndzvTxInflight = ep.rndzvTxInflight
  opId : ep'.opId = ep.opId
  inflight : ep'.inflight = ep.inflight
  trace : ep'.trace = ep.trace
  postings : ep'.postings = ep.postings
  arrivals : ep'.arrivals = ep.arrivals
  idsGiven : ep'.idsGiven = ep.idsGiven
  wire : ∃ l, ep'.wire = ep.wire ++ l ∧ ∀ d ∈ l, d.hdr.Plain
  writes : ∃ l, ep'.writes = ep.writes ++ l ∧ ∀ w ∈ l, w.Plain

namespace Ep.Outer

/-- A step that sent nothing. -/
theorem of_eq {ep ep' : Ep} (h : ep' = { ep with
      rxCq := ep'.rxCq, txCq := ep'.txCq, placed := ep'.placed, peers := ep'.peers,
      domain := ep'.domain, tick := ep'.tick }) : ep.Outer ep' := by
  rw [h]
  exact ⟨rfl, rfl, rfl, rfl, rfl, rfl, rfl, rfl, rfl, rfl, rfl, rfl,
    ⟨[], (List.append_nil _).symm, by simp⟩, ⟨[], (List.append_nil _).symm, by simp⟩⟩

theorem refl (ep : Ep) : ep.Outer ep := of_eq rfl

theorem trans {e₁ e₂ e₃ : Ep} (h : e₁.Outer e₂) (h' : e₂.Outer e₃) : e₁.Outer e₃ where
  cfg := h'.cfg.trans h.cfg
  posted := h'.posted.trans h.posted
  unexp := h'.unexp.trans h.unexp
  pending := h'.pending.trans h.pending
  deferred := h'.deferred.trans h.deferred
  txInflight := h'.txInflight.trans h.txInflight
  opId := h'.opId.trans h.opId
  inflight := h'.inflight.trans h.inflight
  trace := h'.trace.trans h.trace
  postings := h'.postings.trans h.postings
  arrivals := h'.arrivals.trans h.arrivals
  idsGiven := h'.idsGiven.trans h.idsGiven
  wire := by
    obtain ⟨l, hl, hop⟩ := h.wire
    obtain ⟨l', hl', hop'⟩ := h'.wire
    refine ⟨l ++ l', by rw [hl', hl, List.append_assoc], fun d hd => ?_⟩
    rcases List.mem_append.mp hd with hd | hd
    · exact hop d hd
    · exact hop' d hd
  writes := by
    obtain ⟨l, hl, hop⟩ := h.writes
    obtain ⟨l', hl', hop'⟩ := h'.writes
    refine ⟨l ++ l', by rw [hl', hl, List.append_assoc], fun w hw => ?_⟩
    rcases List.mem_append.mp hw with hw | hw
    · exact hop w hw
    · exact hop' w hw

theorem ite {ep a b : Ep} {c : Prop} [Decidable c] (ha : ep.Outer a) (hb : ep.Outer b) :
    ep.Outer (if c then a else b) := by
  split
  · exact ha
  · exact hb

end Ep.Outer

/-! ## The socket and the completion queues -/

/-- A datagram that is neither a request nor a `FIN`. -/
theorem Ep.Outer.sends (ep : Ep) (dst : SockAddr) (hdr : Hdr) (hop : hdr.Plain)
    (payload : List UInt8) (txCq : List CqEntry) : ep.Outer { ep with
      tick := ep.tick + 1
      wire := ep.wire ++ [⟨ep.cfg.self, dst, hdr.encode ++ payload⟩]
      txCq := txCq } := by
  refine ⟨rfl, rfl, rfl, rfl, rfl, rfl, rfl, rfl, rfl, rfl, rfl, rfl, ⟨[_], rfl, ?_⟩,
    ⟨[], (List.append_nil _).symm, by simp⟩⟩
  intro d hd
  rw [List.mem_singleton.mp hd, Dgram.hdr, Hdr.decode_encode]
  exact hop

theorem rdsCqWriteRx_outer (ep : Ep) (context : ℕ) (flags : UInt64) (len : ℕ)
    (data tag src : UInt64) (err : ℕ) :
    ep.Outer (rdsCqWriteRx ep context flags len data tag src err) := by
  rw [rdsCqWriteRx_eq]
  exact .of_eq rfl

/-- A plain write. -/
theorem rdsPostRdma_outer (env : Env) (ep : Ep) {op : RdmaOp} (hnotify : op.notify = false)
    (hplain : op.Plain) : ep.Outer (rdsPostRdma env ep op).1 := by
  rcases rdsPostRdma_cases env ep op with ⟨-, h⟩ | ⟨e, e', -, -, h⟩ | ⟨-, hn, -⟩ | ⟨-, -, h⟩
  · rw [h]
    exact .refl ep
  · rw [h]
    exact .of_eq rfl
  · rw [hnotify] at hn
    cases hn
  · rw [h]
    refine ⟨rfl, rfl, rfl, rfl, rfl, rfl, rfl, rfl, rfl, rfl, rfl, rfl,
      ⟨[], (List.append_nil _).symm, by simp⟩, ⟨[op], rfl, ?_⟩⟩
    intro w hw
    rw [List.mem_singleton.mp hw]
    exact hplain

/-! ## What the receive-side helpers can do -/

/-- **Finalizing sends the `FIN`, writes a completion and records the end.** Where
there is a queue, the completion is an error exactly if the operation had one. -/
theorem rdsRndzvRxFinalize_cases (env : Env) (ep : Ep) (p : Pending) :
    ∃ e cqes, (rdsSendFin env ep p.peer p.peerId).Outer e
      ∧ rdsRndzvRxFinalize env ep p = e.log (.rxDone p.id cqes)
      ∧ (e.cfg.hasRxCq = true → ((∃ c ∈ cqes, c.err ≠ 0) ↔ p.error ≠ 0)) := by
  rw [rdsRndzvRxFinalize_eq env ep p rfl]
  generalize rdsSendFin env ep p.peer p.peerId = e
  refine ⟨{ e with rxCq := e.rxCq ++ p.entries e.cfg }, p.entries e.cfg, .of_eq rfl, rfl,
    fun hcq => ?_⟩
  unfold Pending.entries
  split
  · rw [rxEntries, if_pos hcq]
    simp
  · rename_i hreport
    simpa using fun h => hreport (.inr h)

/-- Completing a rendezvous send unlinks it and gives back its place. -/
theorem rdsPendingComplete_tx (ep : Ep) {p : Pending} (hp : p.type = .rndzvTx) :
    ∃ e n, ep.Outer e ∧ rdsPendingComplete ep p = { e with
      pending := e.pending.eraseP (·.id == p.id)
      rndzvTxInflight := n
      trace := e.trace ++ [.txDone p.id] } := by
  refine ⟨{ ep with
    txCq := (rdsPendingComplete ep p).txCq
    domain := rdsUnregChunks p.cached ep.domain p.mrs },
    (rdsPendingComplete ep p).rndzvTxInflight, .of_eq rfl, ?_⟩
  rw [rdsPendingComplete_eq, if_pos hp]

/-- Completing a one-sided operation unlinks it. -/
theorem rdsPendingComplete_rma (ep : Ep) {p : Pending} (hp : p.type = .rma) :
    ∃ e, ep.Outer e ∧ rdsPendingComplete ep p
      = { e with pending := e.pending.eraseP (·.id == p.id) } := by
  have hne : p.type ≠ .rndzvTx := by
    rw [hp]
    decide
  refine ⟨{ ep with
    txCq := (rdsPendingComplete ep p).txCq
    domain := rdsUnregChunks p.cached ep.domain p.mrs }, .of_eq rfl, ?_⟩
  rw [rdsPendingComplete_eq, if_neg hne, if_neg (fun h => hne h.1), List.append_nil]

/-! ## The ring -/

theorem Ep.outer_setPeer (ep : Ep) (p : Peer) : ep.Outer (ep.setPeer p) := .of_eq rfl

theorem Ep.outer_touchPeer (ep : Ep) (p : Peer) : ep.Outer (ep.touchPeer p) := .of_eq rfl

theorem Ep.outer_regInternal (env : Env) (ep : Ep) (r : Region) :
    ep.Outer (ep.regInternal env r).1 := by
  unfold Ep.regInternal
  split
  · exact .of_eq rfl
  · exact .of_eq rfl

theorem Ep.outer_mrPut (ep : Ep) (mr : Option RdsMr) : ep.Outer (ep.mrPut mr) := by
  unfold Ep.mrPut
  split
  · exact .refl ep
  · exact .of_eq rfl

theorem rdsPeerRegister_outer (env : Env) (ep : Ep) (p : Peer) (ring credit : ℕ) :
    ep.Outer (rdsPeerRegister env ep p ring credit).1 := by
  unfold rdsPeerRegister
  dsimp only
  have hreg := fun r r' => (ep.outer_regInternal env r).trans
    ((ep.regInternal env r).1.outer_regInternal env r')
  split
  · exact hreg _ _
  · exact ((hreg _ _).trans (Ep.outer_mrPut _ _)).trans (Ep.outer_mrPut _ _)

theorem rdsPeerGet_outer {env : Env} {ep e : Ep} {addr : UInt64} {p? : Option Peer}
    (h : rdsPeerGet env ep addr = (e, p?)) : ep.Outer e := by
  rw [show e = (rdsPeerGet env ep addr).1 from (congrArg Prod.fst h).symm]
  refine rdsPeerGet_elim (fun _ _ => .refl ep) (fun _ _ => .refl ep) (fun _ _ _ => .of_eq rfl)
    (fun sa e p _ _ _ hreg => ?_)
  have hout := rdsPeerRegister_outer env { ep with tick := ep.tick + 4 } (Peer.blank addr sa)
    (env.heap (ep.tick + 1)) (env.heap (ep.tick + 3))
  rw [hreg] at hout
  exact ((Ep.Outer.of_eq rfl : ep.Outer { ep with tick := ep.tick + 4 }).trans hout).trans
    (.of_eq rfl)

theorem rdsRingSendCtrl_outer (env : Env) (ep : Ep) (p : Peer) {op : UInt8}
    (hop : op = rdsOpRingReq ∨ op = rdsOpRingAck) : ep.Outer (rdsRingSendCtrl env ep p op) :=
  rdsRingSendCtrl_elim (.refl ep) (.of_eq rfl)
    (fun _ _ _ _ => .sends ep p.sa (ctrlHdr op) (.inr hop) _ ep.txCq)

theorem rdsRingHandleCtrl_outer (env : Env) (ep : Ep) (hdr : Hdr) (payload : List UInt8)
    (srcFi : UInt64) : ep.Outer (rdsRingHandleCtrl env ep hdr payload srcFi) :=
  rdsRingHandleCtrl_elim (.refl ep) (fun _ h => rdsPeerGet_outer h)
    (fun _ _ h => rdsPeerGet_outer h)
    (fun _ _ h _ _ => (rdsPeerGet_outer h).trans (Ep.outer_setPeer _ _))
    (fun e p h _ _ _ => ((rdsPeerGet_outer h).trans
      (.ite (rdsRingSendCtrl_outer env e p (.inr rfl)) (.refl e))).trans (Ep.outer_setPeer _ _))

theorem rdsRingConnect_outer (env : Env) (ep : Ep) (p : Peer) :
    ep.Outer (rdsRingConnect env ep p).1 := by
  have hkick := rdsRingSendCtrl_outer env ep p (.inl rfl)
  refine rdsRingConnect_elim (fun e q _ he _ => ?_) (fun e q _ he _ _ => ?_)
    (fun _ => .of_eq rfl) (fun _ _ => .of_eq rfl)
  · rw [he]
    exact hkick.trans (.of_eq rfl)
  · rw [he]
    exact hkick.trans (.of_eq rfl)

/-- An unfinished handshake never carries a message. -/
theorem rdsRingConnect_ret (env : Env) (ep : Ep) (p : Peer) :
    (rdsRingConnect env ep p).2 = .err fiEnosys
      ∨ (rdsRingConnect env ep p).2 = .err fiEagain :=
  rdsRingConnect_elim (fun _ _ _ _ _ => .inr rfl) (fun _ _ _ _ _ _ => .inl rfl)
    (fun _ => .inr rfl) (fun _ _ => .inl rfl)

/-- A slot with the given operation and payload was written to a peer's ring, and
nothing else happened but outward. -/
def Ep.Places (ep ep' : Ep) (op : UInt8) (payload : List UInt8) : Prop :=
  ∃ writes w idx slot, ep.Outer { ep' with writes := writes } ∧ ep'.writes = writes ++ [w]
    ∧ w.loc = .stage idx slot ∧ slot.op = op ∧ slot.payload = payload
    ∧ slot.len = UInt32.ofNat payload.length

/-- An eager slot is of no further concern. -/
theorem Ep.Places.outer {ep ep' : Ep} {payload : List UInt8}
    (h : ep.Places ep' rdsOpEager payload) : ep.Outer ep' := by
  obtain ⟨writes, w, idx, slot, hout, hw, hloc, hop, -, -⟩ := h
  obtain ⟨l, hl, hplain⟩ := hout.writes
  have hl : writes = ep.writes ++ l := hl
  refine ⟨hout.cfg, hout.posted, hout.unexp, hout.pending, hout.deferred, hout.txInflight,
    hout.opId, hout.inflight, hout.trace, hout.postings, hout.arrivals, hout.idsGiven,
    hout.wire, l ++ [w], by rw [hw, hl, List.append_assoc], fun v hv => ?_⟩
  rcases List.mem_append.mp hv with hv | hv
  · exact hplain v hv
  · rw [List.mem_singleton.mp hv]
    intro idx' slot' hloc'
    rw [hloc] at hloc'
    cases hloc'
    exact hop

theorem Ep.Places.of_outer {ep₀ ep ep' : Ep} {op : UInt8} {payload : List UInt8}
    (h₀ : ep₀.Outer ep) (h : ep.Places ep' op payload) : ep₀.Places ep' op payload := by
  obtain ⟨writes, w, idx, slot, hout, rest⟩ := h
  exact ⟨writes, w, idx, slot, h₀.trans hout, rest⟩

theorem rdsRingPlace_spec (env : Env) (ep : Ep) (p : Peer) (payload : List UInt8)
    (tag data : UInt64) (context : ℕ) (flags : UInt64) (tagged genComp : Bool) (op : UInt8)
    {r : Ep × Ret}
    (hr : rdsRingPlace env ep p payload tag data context flags tagged genComp op = r) :
    (r.2 ≠ .ok ∧ ep.Outer r.1) ∨ (r.2 = .ok ∧ ep.Places r.1 op payload) := by
  subst hr
  refine rdsRingPlace_elim (fun q _ _ => .inl ⟨nofun, .of_eq rfl⟩)
    (fun q slot e err _ _ _ _ _ => .inl ⟨nofun, .of_eq rfl⟩) (fun q slot _ _ hslot => ?_)
  rw [hslot]
  exact .inr ⟨rfl, ep.writes, _, _, _, .of_eq rfl, rfl, rfl, rfl, rfl, rfl⟩

/-- **`rds_ring_send` either places its slot or faces outward only.** -/
theorem rdsRingSend_spec (env : Env) (ep : Ep) (payload : List UInt8) (dest tag data : UInt64)
    (context : ℕ) (flags : UInt64) (tagged genComp : Bool) (op : UInt8) {r : Ep × Ret}
    (hr : rdsRingSend env ep payload dest tag data context flags tagged genComp op = r) :
    (r.2 ≠ .ok ∧ ep.Outer r.1)
      ∨ (r.2 = .ok ∧ ep.cfg.eagerRdma = true ∧ ep.Places r.1 op payload) := by
  subst hr
  have htouch {e : Ep} {p : Peer} (h : rdsPeerGet env ep dest = (e, some p)) :
      ep.Outer (e.touchPeer p) := (rdsPeerGet_outer h).trans (Ep.outer_touchPeer e p)
  refine rdsRingSend_elim (fun _ => .inl ⟨nofun, .refl ep⟩)
    (fun e h => .inl ⟨nofun, rdsPeerGet_outer h⟩) (fun e p hon _ h _ => ?_)
    (fun e p h _ => .inl ⟨nofun, htouch h⟩) (fun e p h _ _ => .inl ⟨?_, ?_⟩)
  · obtain ⟨hret, hout⟩ | ⟨hret, hplace⟩ := rdsRingPlace_spec env (e.touchPeer p) p payload tag data
      context flags tagged genComp op rfl
    · exact .inl ⟨hret, (htouch h).trans hout⟩
    · exact .inr ⟨hret, hon, hplace.of_outer (htouch h)⟩
  · obtain hret | hret := rdsRingConnect_ret env (e.touchPeer p) p
    · rw [hret]
      exact nofun
    · rw [hret]
      exact nofun
  · exact (htouch h).trans (rdsRingConnect_outer env _ p)

theorem rdsRingSend_eager_outer {env : Env} {ep e : Ep} {payload : List UInt8}
    {dest tag data : UInt64} {context : ℕ} {flags : UInt64} {tagged genComp : Bool} {ret : Ret}
    (h : rdsRingSend env ep payload dest tag data context flags tagged genComp rdsOpEager
      = (e, ret)) : ep.Outer e := by
  obtain ⟨-, hout⟩ | ⟨-, -, hplaces⟩ := rdsRingSend_spec _ _ _ _ _ _ _ _ _ _ _ h
  · exact hout
  · exact hplaces.outer

theorem rdsSendEager_outer (env : Env) (ep : Ep) (iov : List Iovec) (dest : SockAddr)
    (tag data : UInt64) (context : ℕ) (flags : UInt64) (tagged genComp : Bool) :
    ep.Outer (rdsSendEager env ep iov dest tag data context flags tagged genComp).1 :=
  rdsSendEager_elim (fun _ _ _ _ _ => .of_eq rfl) (.sends ep dest _ (.inl rfl) _ _)

theorem rdsRingReturnCredit_outer (env : Env) (ep : Ep) (p : Peer) :
    ep.Outer (rdsRingReturnCredit env ep p) := by
  have hnotify : ({ p with creditTx := p.rxHead } : Peer).creditWrite.notify = false := rfl
  have hpost := rdsPostRdma_outer env ep hnotify (fun idx slot h => by cases h)
  unfold rdsRingReturnCredit
  dsimp only
  split
  · rename_i e heq
    rw [heq] at hpost
    exact hpost.trans (Ep.outer_setPeer _ _)
  · rename_i e err heq
    rw [heq] at hpost
    exact hpost.trans (Ep.outer_setPeer _ _)

theorem rdsRingFlushCredit_outer (env : Env) (ep : Ep) (addr : UInt64) :
    ep.Outer (rdsRingFlushCredit env ep addr) := by
  exact rdsRingFlushCredit_elim (.refl ep) (fun p _ => rdsRingReturnCredit_outer env ep p)

/-- **A round of polling that finds a slot** delivers it; what follows is outward. -/
theorem rdsRingPollSlot_outer (env : Env) (ep : Ep) (addr : UInt64) :
    (rdsRingPollSlot env ep addr = none
      ∧ ∀ p, rdsPeerFind ep addr = some p → p.nextSlot ep.cfg.geom.slots = none)
    ∨ ∃ p slot e, rdsPeerFind ep addr = some p ∧ p.nextSlot ep.cfg.geom.slots = some slot
      ∧ rdsRingPollSlot env ep addr = some e
      ∧ (rdsRingDeliver env (ep.setPeer (p.absorbAck slot.ack)) p.sa p.addr slot).Outer e := by
  obtain hnone | ⟨p, slot, e, hp, hnext, he, hlast⟩ := rdsRingPollSlot_cases env ep addr
  · exact .inl hnone
  refine .inr ⟨p, slot, e, hp, hnext, he, ?_⟩
  obtain rfl | ⟨q, -, rfl | rfl⟩ := hlast
  · exact .refl _
  · exact Ep.outer_setPeer _ _
  · exact (Ep.outer_setPeer _ _).trans (rdsRingReturnCredit_outer env _ _)

/-! ## Sending -/

/-- The endpoint after an id was drawn. -/
def Ep.withId (ep : Ep) : Ep :=
  { ep with opId := succId ep.opId, idsGiven := ep.idsGiven + 1 }

/-- **A request went out**, as a datagram or, if the ring is on, in a slot, and its
send is pending. The id is already drawn. -/
def Ep.Requests (ep ep' : Ep) (dest : SockAddr) (p : Pending) (hdr : Hdr)
    (segs : List Seg) : Prop :=
  (∃ e t, ep.Outer e ∧ ep' = Ep.withTx { e with
      tick := t, wire := e.wire ++ [⟨e.cfg.self, dest, hdr.encode ++ encodeSegs segs⟩] } p)
    ∨ (ep.cfg.eagerRdma = true
      ∧ ∃ e, ep.Places e rdsOpRts (hdr.encode ++ encodeSegs segs) ∧ ep' = e.withTx p)

theorem Ep.Requests.of_outer {ep₀ ep ep' : Ep} (h₀ : ep₀.Outer ep) {dest : SockAddr}
    {p : Pending} {hdr : Hdr} {segs : List Seg} (h : ep.Requests ep' dest p hdr segs) :
    ep₀.Requests ep' dest p hdr segs := by
  rcases h with ⟨e, t, hout, h⟩ | ⟨hring, e, hplaces, h⟩
  · exact .inl ⟨e, t, h₀.trans hout, h⟩
  · exact .inr ⟨h₀.cfg ▸ hring, e, hplaces.of_outer h₀, h⟩

theorem rdsSendRts_cases (env : Env) (ep : Ep) (p : Pending) (hdr : Hdr) (segs : List Seg)
    (dest : SockAddr) (destAddr : UInt64) {r : Ep × Ret}
    (hr : rdsSendRts env ep p (hdr.encode ++ encodeSegs segs) dest destAddr = r) :
    (r.2 ≠ .ok ∧ ep.Outer r.1) ∨ (r.2 = .ok ∧ ep.Requests r.1 dest p hdr segs) := by
  subst hr
  have hring {e : Ep} {err : ℕ+} (h : rdsRingSend env ep (hdr.encode ++ encodeSegs segs) destAddr
      0 0 0 0 false false rdsOpRts = (e, .err err)) : ep.Outer e := by
    obtain ⟨-, hout⟩ | ⟨hret, -⟩ := rdsRingSend_spec _ _ _ _ _ _ _ _ _ _ _ h
    · exact hout
    · cases hret
  refine rdsSendRts_elim (fun e err h => .inl ⟨nofun, (hring h).trans (.of_eq rfl)⟩)
    (fun e err h => .inl ⟨nofun, (hring h).trans (.of_eq rfl)⟩) (fun e h => ?_) (fun e h => ?_)
  · obtain ⟨hret, -⟩ | ⟨-, hon, hplaces⟩ := rdsRingSend_spec _ _ _ _ _ _ _ _ _ _ _ h
    · exact absurd rfl hret
    · exact .inr ⟨rfl, .inr ⟨hon, e, hplaces, rfl⟩⟩
  · refine .inr ⟨rfl, .inl ⟨e, e.tick + 1, hring h, ?_⟩⟩
    rw [(hring h).cfg]

/-- **A rendezvous send is refused, with or without drawing an id, or its request
goes out**, describing the source with as many segments as its header says. -/
theorem rdsSendRndzv_cases (env : Env) (ep : Ep) (iov : List Iovec) (dest : SockAddr)
    (tag data : UInt64) (context : ℕ) (flags : UInt64) (tagged genComp : Bool)
    (destAddr : UInt64) {r : Ep × Ret}
    (hr : rdsSendRndzv env ep iov dest tag data context flags tagged genComp destAddr = r) :
    (r.2 ≠ .ok ∧ ep.Outer r.1) ∨ (r.2 ≠ .ok ∧ ep.withId.Outer r.1)
      ∨ (r.2 = .ok ∧ ∃ segs mrs cached, segs.length = rdsNseg iov
        ∧ rdsNseg iov * rdsSegSize ≤ rdsMaxEagerSize
        ∧ ep.withId.Requests r.1 dest
            (txPending (succId ep.opId) context tagged genComp (ofiTotalIovLen iov) mrs cached)
            (rtsHdr tagged flags (rdsNseg iov) tag data (ofiTotalIovLen iov) (succId ep.opId))
            segs) := by
  subst hr
  refine rdsSendRndzv_elim (fun t err => .inl ⟨nofun, .of_eq rfl⟩)
    (fun t dom segs mrs _ err _ => .inl ⟨nofun, .of_eq rfl⟩)
    (fun dom segs mrs _ hlen hsize _ => ?_)
  have hdrawn : ep.withId.Outer { ep with
      tick := ep.tick + 3, domain := dom, opId := succId ep.opId
      idsGiven := ep.idsGiven + 1 } := .of_eq rfl
  obtain ⟨hret, hout⟩ | ⟨hret, hreq⟩ := rdsSendRts_cases env _ (txPending (succId ep.opId) context
    tagged genComp (ofiTotalIovLen iov) mrs ep.domain.cacheEnabled)
    (rtsHdr tagged flags (rdsNseg iov) tag data (ofiTotalIovLen iov) (succId ep.opId)) segs dest
    destAddr rfl
  · exact .inr (.inl ⟨hret, hdrawn.trans hout⟩)
  · exact .inr (.inr ⟨hret, segs, mrs, _, hlen, hsize, hreq.of_outer hdrawn⟩)

/-- **A send faces outward only, wastes an id, or puts a request out.** -/
theorem rdsGenericSend_cases (env : Env) (ep : Ep) (iov : List Iovec)
    (destAddr tag data : UInt64) (context : ℕ) (flags : UInt64) (tagged : Bool)
    {r : Ep × Ret}
    (hr : rdsGenericSend env ep iov destAddr tag data context flags tagged = r) :
    ep.Outer r.1 ∨ (r.2 ≠ .ok ∧ ep.withId.Outer r.1)
      ∨ (r.2 = .ok ∧ ∃ dest genComp segs mrs cached, rdsAvAddr ep.cfg destAddr = some dest
        ∧ segs.length = rdsNseg iov ∧ rdsNseg iov * rdsSegSize ≤ rdsMaxEagerSize
        ∧ ep.withId.Requests r.1 dest
            (txPending (succId ep.opId) context tagged genComp (ofiTotalIovLen iov) mrs cached)
            (rtsHdr tagged flags (rdsNseg iov) tag data (ofiTotalIovLen iov) (succId ep.opId))
            segs) := by
  subst hr
  refine rdsGenericSend_elim (fun err => .inl (.refl ep))
    (fun dest genComp e ret _ _ _ _ h _ => .inl (rdsRingSend_eager_outer h))
    (fun dest genComp e _ _ _ _ h => .inl ((rdsRingSend_eager_outer h).trans
      (rdsSendEager_outer env e iov dest tag data context flags tagged genComp)))
    (fun dest genComp _ hdest _ _ _ => ?_)
  obtain ⟨-, h⟩ | ⟨hret, h⟩ | ⟨hret, segs, mrs, cached, hlen, hsize, hreq⟩ :=
    rdsSendRndzv_cases env ep iov dest tag data context flags tagged genComp destAddr rfl
  · exact .inl h
  · exact .inr (.inl ⟨hret, h⟩)
  · exact .inr (.inr ⟨hret, dest, genComp, segs, mrs, cached, hdest, hlen, hsize, hreq⟩)

theorem rdsGenericInject_outer (env : Env) (ep : Ep) (buf len : ℕ) (destAddr tag : UInt64)
    (tagged : Bool) : ep.Outer (rdsGenericInject env ep buf len destAddr tag tagged).1 := by
  exact rdsGenericInject_elim (fun _ => .refl ep) (.refl ep)
    (fun dest e ret _ _ h _ => rdsRingSend_eager_outer h)
    (fun dest e _ _ h => (rdsRingSend_eager_outer h).trans
      (rdsSendEager_outer env e _ dest tag 0 0 0 tagged false))
