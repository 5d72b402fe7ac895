import RdsProv.Rendezvous
import RdsProv.Duplex

/-!
# What an accepted send hands over

A message leaves its sender in a datagram or in a slot of the ring, and either may carry an eager
message or the request for a rendezvous. What the receiver's matching engine is given does not
tell the two carriers apart: a slot that carries an eager message stands for the header its
datagram would have had (`Carrier.message?_slot`), and one that carries a request has the whole
datagram in it.

So there are two outcomes of an accepted call, not four (`SendReq.accepted`): an eager message was
handed over and the send is complete, or a request was and the send is pending.
-/

/-! ## Messages on their way -/

/-- What carries a message: a datagram, or a slot of the ring. -/
inductive Carrier where
  | dgram (bytes : List UInt8)
  | slot (s : RingSlot)

/-- The message it carries. -/
def Carrier.message? : Carrier → Option Message
  | .dgram bytes =>
    if rdsHdrSize ≤ bytes.length then (Hdr.decode bytes).message? (bytes.drop rdsHdrSize) else none
  | .slot s => s.message?

/-- **What a step handed over last**: a slot, if it posted the write of one, and else a
datagram. -/
def Ep.HandsOver (ep ep' : Ep) : Carrier → Prop
  | .dgram bytes => ep'.writes = ep.writes
      ∧ ∃ l dst, ep'.wire = ep.wire ++ l ++ [⟨ep.cfg.self, dst, bytes⟩]
  | .slot s => ∃ p : Peer, ep'.writes = ep.writes ++ [p.slotWrite s]

/-- There is only one. -/
theorem Ep.HandsOver.unique {ep ep' : Ep} {c c' : Carrier} (h : ep.HandsOver ep' c)
    (h' : ep.HandsOver ep' c') : c = c' := by
  cases c with
  | dgram bytes =>
    obtain ⟨hwrites, l, dst, hwire⟩ := h
    cases c' with
    | dgram bytes' =>
      obtain ⟨-, l', dst', hwire'⟩ := h'
      rw [hwire] at hwire'
      obtain ⟨-, hlast⟩ := List.append_inj' hwire' rfl
      cases hlast
      rfl
    | slot s =>
      obtain ⟨p, hwrites'⟩ := h'
      rw [hwrites] at hwrites'
      simp at hwrites'
  | slot s =>
    obtain ⟨p, hwrites⟩ := h
    cases c' with
    | dgram bytes =>
      rw [h'.1] at hwrites
      simp at hwrites
    | slot s' =>
      obtain ⟨p', hwrites'⟩ := h'
      rw [hwrites] at hwrites'
      obtain ⟨-, hlast⟩ := List.append_inj' hwrites' rfl
      have hloc : (p.slotWrite s).loc = (p'.slotWrite s').loc :=
        congrArg RdmaOp.loc (List.singleton_injective hlast)
      exact congrArg Carrier.slot (LocalVec.stage.inj hloc).2

/-- A datagram carries the message it was made of. -/
theorem Carrier.message?_dgram {hdr : Hdr} {payload : List UInt8} {m : Message}
    (h : hdr.message? payload = some m) :
    (Carrier.dgram (hdr.encode ++ payload)).message? = some m := by
  have hlen : rdsHdrSize ≤ (hdr.encode ++ payload).length := by
    rw [List.length_append, Hdr.encode_length]
    exact Nat.le_add_right _ _
  unfold Carrier.message?
  dsimp only
  rw [if_pos hlen, Hdr.decode_encode, Hdr.drop_encode]
  exact h

section Slots

variable {g : RingGeom} {p : Peer} {payload : List UInt8} (hlen : payload.length ≤ g.payload)

include hlen

theorem fillSlot_len (op flags : UInt8) (tag data : UInt64) :
    (p.fillSlot op flags tag data payload).len.toNat = payload.length := by
  have hsize : g.slotSize.toNat < 2 ^ 32 := g.slotSize.toNat_lt
  show (UInt32.ofNat payload.length).toNat = payload.length
  rw [UInt32.toNat_ofNat', Nat.mod_eq_of_lt]
  unfold RingGeom.payload at hlen
  omega

/-- **A slot carries the message an eager datagram would have carried.** -/
theorem Carrier.message?_slot (tagged : Bool) (flags tag data : UInt64) :
    (Carrier.slot (p.fillSlot rdsOpEager (rdsHdrFlags tagged flags) tag data payload)).message?
      = some (eagerHdr tagged flags tag data payload.length, payload) := by
  have hfill := fillSlot_len hlen (p := p) rdsOpEager (rdsHdrFlags tagged flags) tag data
  have hsize : (p.fillSlot rdsOpEager (rdsHdrFlags tagged flags) tag data payload).len.toUInt64
      = UInt64.ofNat payload.length := by
    rw [← hfill, ← UInt32.toNat_toUInt64, UInt64.ofNat_toNat]
  unfold Carrier.message? RingSlot.message?
  dsimp only
  have hop : (p.fillSlot rdsOpEager (rdsHdrFlags tagged flags) tag data payload).op
      = rdsOpEager := rfl
  rw [hfill, hsize, if_pos hop]
  show Hdr.message? (eagerHdr tagged flags tag data payload.length)
    (payload.take payload.length) = _
  rw [List.take_length]
  exact if_pos ⟨rfl, .inl rfl⟩

/-- A slot carries the request that was put into it. -/
theorem Carrier.message?_slot_rts {hdr : Hdr} {segs : List UInt8} {m : Message}
    (hpayload : payload = hdr.encode ++ segs) (h : hdr.message? segs = some m) (flags : UInt8)
    (tag data : UInt64) :
    (Carrier.slot (p.fillSlot rdsOpRts flags tag data payload)).message? = some m := by
  have hfill := fillSlot_len hlen (p := p) rdsOpRts flags tag data
  have hsize : ¬ payload.length < rdsHdrSize := by
    rw [hpayload, List.length_append, Hdr.encode_length]
    omega
  unfold Carrier.message? RingSlot.message?
  dsimp only
  have hop : rdsOpRts ≠ rdsOpEager := by decide
  rw [hfill, if_neg (show (p.fillSlot rdsOpRts flags tag data payload).op ≠ rdsOpEager from hop),
    if_neg hsize]
  show (Hdr.decode (payload.take payload.length)).message?
    ((payload.take payload.length).drop rdsHdrSize) = _
  rw [List.take_length, hpayload, Hdr.decode_encode, Hdr.drop_encode]
  exact h

end Slots

/-! ## What an accepted send hands over -/

/-- **A slot is placed**, with the header fields of its message and its completion. -/
theorem rdsRingSend_slot {env : Env} {ep e' : Ep} {payload : List UInt8} {dest tag data : UInt64}
    {context : ℕ} {flags : UInt64} {tagged genComp : Bool} {op : UInt8}
    (h : rdsRingSend env ep payload dest tag data context flags tagged genComp op = (e', .ok)) :
    payload.length ≤ ep.cfg.geom.payload ∧ ∃ e p, ep.RingSide e ∧ e' = { e with
      peers := e'.peers
      tick := e'.tick
      txCq := e.txCq
        ++ (if genComp then txEntries e.cfg context (txFlags tagged) payload.length 0 else [])
      writes := e.writes
        ++ [Peer.slotWrite p (p.fillSlot op (rdsHdrFlags tagged flags) tag data payload)] } := by
  revert h
  refine rdsRingSend_elim (fun _ => nofun) (fun _ _ => nofun) (fun e p _ hlen hget _ => ?_)
    (fun _ _ _ _ => nofun) (fun e p _ _ _ => rdsRingConnect_elim (fun _ _ _ _ _ => nofun)
      (fun _ _ _ _ _ _ => nofun) (fun _ => nofun) (fun _ _ => nofun))
  refine rdsRingPlace_elim (fun _ _ _ => nofun) (fun _ _ _ _ _ _ _ _ _ => nofun)
    (fun q slot _ _ hslot h => ?_)
  have htouch : ep.RingSide (e.touchPeer p) :=
    (rdsPeerGet_quiet .any hget).1.toRingSide.trans (.of_eq rfl)
  cases h
  rw [hslot]
  exact ⟨hlen, e.touchPeer p, q, htouch, rfl⟩

/-- A ring that does not take a message has at most tried a handshake. -/
theorem rdsRingSend_refused {env : Env} {ep e' : Ep} {payload : List UInt8}
    {dest tag data : UInt64} {context : ℕ} {flags : UInt64} {tagged genComp : Bool} {op : UInt8}
    {err : ℕ+}
    (h : rdsRingSend env ep payload dest tag data context flags tagged genComp op
      = (e', .err err)) : ep.RingSide e' := by
  have hany : ep.Overdue env dest → RingInput.any.expires dest := fun _ => trivial
  obtain ⟨-, hquiet⟩ | ⟨hok, -⟩ :=
    rdsRingSend_ring env ep payload dest tag data context flags tagged genComp op hany h
  · exact hquiet.toRingSide
  · cases hok

/-- A datagram sent after the ring was tried is what was handed over last. -/
theorem Ep.RingSide.handsOver {ep e : Ep} (h : ep.RingSide e) {e' : Ep} (dst : SockAddr)
    {bytes : List UInt8} (hwrites : e'.writes = e.writes)
    (hwire : e'.wire = e.wire ++ [⟨ep.cfg.self, dst, bytes⟩]) : ep.HandsOver e' (.dgram bytes) := by
  obtain ⟨l, hl, -⟩ := h.wire
  exact ⟨hwrites.trans h.writes, l, dst, by rw [hwire, hl]⟩

/-- **A request is handed over**, and its send is pending. -/
theorem rdsSendRts_ok {env : Env} {ep e' : Ep} {p : Pending} {hdr : Hdr} {segs : List UInt8}
    {dest : SockAddr} {destAddr : UInt64} {m : Message} (hm : hdr.message? segs = some m)
    (h : rdsSendRts env ep p (hdr.encode ++ segs) dest destAddr = (e', .ok)) :
    (∃ c, ep.HandsOver e' c ∧ c.message? = some m)
      ∧ e'.cfg = ep.cfg ∧ e'.txCq = ep.txCq ∧ e'.pending = ep.pending ++ [p] := by
  revert h
  refine rdsSendRts_elim (fun _ _ _ => nofun) (fun _ _ _ => nofun) (fun e hplaced h => ?_)
    (fun e hring h => ?_)
  · obtain ⟨hlen, e₀, q, hside, heq⟩ := rdsRingSend_slot hplaced
    cases h
    refine ⟨⟨.slot (q.fillSlot rdsOpRts (rdsHdrFlags false 0) 0 0 (hdr.encode ++ segs)), ⟨q, ?_⟩,
      Carrier.message?_slot_rts hlen rfl hm _ 0 0⟩, ?_⟩
    · exact (congrArg Ep.writes heq :).trans (congrArg (· ++ _) hside.writes)
    · refine ⟨(congrArg Ep.cfg heq :).trans hside.cfg, ?_, ?_⟩
      · refine (congrArg Ep.txCq heq :).trans ((List.append_nil _).trans ?_)
        exact (congrArg Ep.txCq hside.eq :)
      · refine congrArg (· ++ [p]) ((congrArg Ep.pending heq :).trans ?_)
        exact (congrArg Ep.pending hside.eq :)
  · have hside := rdsRingSend_refused hring
    cases h
    exact ⟨⟨.dgram _, hside.handsOver _ rfl rfl, Carrier.message?_dgram hm⟩, hside.cfg,
      (congrArg Ep.txCq hside.eq :), congrArg (· ++ [p]) (congrArg Ep.pending hside.eq :)⟩

/-- A request is a message. -/
theorem message?_rtsHdr (tagged : Bool) (flags tag data : UInt64) (total : ℕ) (id : UInt64)
    (segs : List Seg) :
    (rtsHdr tagged flags segs.length tag data total id).message? (encodeSegs segs)
      = some (rtsHdr tagged flags segs.length tag data total id, encodeSegs segs) := by
  refine if_pos ⟨rfl, .inr ⟨rfl, ?_⟩⟩
  rw [encodeSegs_length]
  refine Nat.mul_le_mul_right _ ?_
  show (UInt16.ofNat segs.length).toNat ≤ segs.length
  rw [UInt16.toNat_ofNat']
  exact Nat.mod_le _ _

/-- What an application asks of `rds_generic_send`. -/
structure SendReq where
  iov : List Iovec
  destAddr : UInt64
  tag : UInt64
  data : UInt64
  context : ℕ
  flags : UInt64
  tagged : Bool

namespace SendReq

variable (r : SendReq)

/-- The call. -/
def call (env : Env) (ep : Ep) : Ep × Ret :=
  rdsGenericSend env ep r.iov r.destAddr r.tag r.data r.context r.flags r.tagged

/-- The length of the message. -/
def total : ℕ := ofiTotalIovLen r.iov

/-- Whether its completion is reported. -/
def reported (cfg : EpCfg) : Bool := hasFlag (cfg.txOpFlags ||| r.flags) fiCompletion

/-- The send completion. -/
def sent (cfg : EpCfg) : List CqEntry :=
  if r.reported cfg then txEntries cfg r.context (txFlags r.tagged) r.total 0 else []

/-- The message as it travels if it is eager. -/
def eager (mem : ℕ → UInt8) : Message :=
  (eagerHdr r.tagged r.flags r.tag r.data r.total, gather mem r.iov)

/-- The request for it if it is not. -/
def request (id : UInt64) (segs : List Seg) : Message :=
  (rtsHdr r.tagged r.flags segs.length r.tag r.data r.total id, encodeSegs segs)

/-- **An eager message was handed over**: the send is complete. -/
structure Eager (env : Env) (ep ep' : Ep) : Prop where
  carrier : ∃ c, ep.HandsOver ep' c ∧ c.message? = some (r.eager env.mem)
  txCq : ep'.txCq = ep.txCq ++ r.sent ep.cfg

/-- **A request was handed over**: the send is pending. -/
structure Requested (ep ep' : Ep) : Prop where
  carrier : ∃ segs, List.Forall₂ Seg.Shapes segs (chunksOf r.iov)
    ∧ segs.length * rdsSegSize ≤ rdsMaxEagerSize
    ∧ ∃ c, ep.HandsOver ep' c ∧ c.message? = some (r.request (succId ep.opId) segs)
  cfg : ep'.cfg = ep.cfg
  txCq : ep'.txCq = ep.txCq
  pending : ∃ mrs cached, ep'.pending = ep.pending
    ++ [txPending (succId ep.opId) r.context r.tagged (r.reported ep.cfg) r.total mrs cached]

/-- **A rendezvous send that was accepted.** -/
theorem rdsSendRndzv_ok {env : Env} {ep e' : Ep} {dest : SockAddr}
    (h : rdsSendRndzv env ep r.iov dest r.tag r.data r.context r.flags r.tagged
      (r.reported ep.cfg) r.destAddr = (e', .ok)) : r.Requested ep e' := by
  revert h
  refine rdsSendRndzv_elim (fun _ _ => nofun) (fun _ _ _ _ _ _ _ => nofun)
    (fun dom segs mrs hreg hnseg hsize _ h => ?_)
  have hshapes := rdsRegChunks_shapes env ep.cfg.sock ep.domain.cacheEnabled (chunksOf r.iov)
    ep.domain
  rw [hreg] at hshapes
  rw [← hnseg] at h hsize
  obtain ⟨hcarrier, hcfg, htxCq, hpending⟩ := rdsSendRts_ok (message?_rtsHdr _ _ _ _ _ _ _) h
  exact ⟨⟨segs, hshapes rfl, hsize, hcarrier⟩, hcfg, htxCq, mrs, _, hpending⟩

/-- An eager message is a message. -/
theorem message?_eager (mem : ℕ → UInt8) :
    (r.eager mem).1.message? (r.eager mem).2 = some (r.eager mem) := if_pos ⟨rfl, .inl rfl⟩

/-- **An eager datagram that was accepted**, after the ring declined. -/
theorem rdsSendEager_ok {env : Env} {ep e e' : Ep} (hside : ep.RingSide e) {dest : SockAddr}
    (h : rdsSendEager env e r.iov dest r.tag r.data r.context r.flags r.tagged
      (r.reported ep.cfg) = (e', .ok)) : r.Eager env ep e' := by
  revert h
  refine rdsSendEager_elim (fun _ _ _ _ _ => nofun) (fun h => ?_)
  cases h
  refine ⟨⟨.dgram ((r.eager env.mem).1.encode ++ (r.eager env.mem).2),
    hside.handsOver dest rfl ?_, Carrier.message?_dgram (r.message?_eager env.mem)⟩, ?_⟩
  · rw [← hside.cfg]
    rfl
  · exact congrArg₂ (· ++ ·) (congrArg Ep.txCq hside.eq :) (hside.cfg ▸ rfl)

/-- **A slot that was accepted.** -/
theorem rdsRingSend_ok {env : Env} {ep e' : Ep}
    (h : rdsRingSend env ep (gather env.mem r.iov) r.destAddr r.tag r.data r.context r.flags
      r.tagged (r.reported ep.cfg) rdsOpEager = (e', .ok)) : r.Eager env ep e' := by
  obtain ⟨hlen, e, p, hside, heq⟩ := rdsRingSend_slot h
  have hmsg := Carrier.message?_slot (p := p) hlen r.tagged r.flags r.tag r.data
  rw [length_gather] at hmsg heq
  refine ⟨⟨.slot _, ⟨p, ?_⟩, hmsg⟩, ?_⟩
  · exact (congrArg Ep.writes heq :).trans (congrArg (· ++ _) hside.writes)
  · refine (congrArg Ep.txCq heq :).trans ?_
    rw [hside.cfg]
    exact congrArg (· ++ r.sent ep.cfg) (congrArg Ep.txCq hside.eq :)

/-- **A send that was accepted** handed over an eager message, or a request for one. -/
theorem accepted {env : Env} {ep ep' : Ep} (h : r.call env ep = (ep', .ok)) :
    r.total ≤ rdsMaxMsgSize ∧ (r.Eager env ep ep' ∨ r.Requested ep ep') := by
  revert h
  unfold call
  refine rdsGenericSend_elim (fun _ => nofun) (fun dest genComp e ret _ hgen hmax _ hring _ h => ?_)
    (fun dest genComp e _ hgen hmax _ hring h => ?_) (fun dest genComp _ _ hgen hmax _ h => ?_)
  · cases hgen
    cases h
    exact ⟨hmax, .inl (r.rdsRingSend_ok hring)⟩
  · cases hgen
    exact ⟨hmax, .inl (r.rdsSendEager_ok (rdsRingSend_refused hring) h)⟩
  · cases hgen
    exact ⟨hmax, .inr (r.rdsSendRndzv_ok h)⟩

end SendReq
