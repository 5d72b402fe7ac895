import RdsProv.PeerTable
import RdsProv.RingLink
import RdsProv.Stranding
import RdsProv.AllOrNothing

/-!
# Which channel a message takes

A send tries the ring first and falls back to the socket if `rds_ring_send` says `ENOSYS`.
If that happened at times, messages to one peer would overtake each other, so it must happen
for good or not at all. It does, for a message that fits a slot: `ENOSYS` means that the
peer's record is disabled, or that it has none and the table is full
(`Ep.Ringless`), and neither ever ends. Conversely a record that is `READY` stays `READY`, as
long as the geometries it hears of are its endpoint's own.

Two things are left out of this. A request that is too long for a slot is sent on the socket,
ring or not. And `rds_generic_inject` sends on the socket what is too long for a slot.
-/

/-! ## The cap -/

/-- A record is replaced by one with the same address. -/
theorem map_addr_modifyFirst (a : UInt64) {f : Peer → Peer} (hf : ∀ p, p.addr = a → (f p).addr = a)
    (l : List Peer) : (l.modifyFirst (·.addr == a) f).map Peer.addr = l.map Peer.addr := by
  induction l with
  | nil => rfl
  | cons p l ih =>
    rw [List.modifyFirst]
    split
    · rename_i hp
      have hp : p.addr = a := by simpa using hp
      rw [List.map_cons, List.map_cons, hf p hp, hp]
    · rw [List.map_cons, List.map_cons, ih]

/-- **Once the cap is reached no record is made**: the peers are those there were. -/
def Ep.Caps (ep e : Ep) : Prop :=
  e.cfg = ep.cfg ∧ (ep.cfg.ringMaxPeers ≤ ep.peers.length →
    (e.peers.map Peer.addr).Perm (ep.peers.map Peer.addr))

/-- At the cap a peer is found or it is not. -/
theorem rdsPeerGet_of_capped (env : Env) {ep : Ep} (a : UInt64)
    (hcap : ep.cfg.ringMaxPeers ≤ ep.peers.length) :
    rdsPeerGet env ep a = (ep, rdsPeerFind ep a) := by
  exact rdsPeerGet_elim (fun p hp => by rw [hp]) (fun hnone _ => by rw [hnone])
    (fun _ hroom _ => absurd hcap hroom) (fun _ _ _ _ hroom _ _ => absurd hcap hroom)

namespace Ep.Caps

variable {ep e e' : Ep}

theorem of_eq (hcfg : e.cfg = ep.cfg) (hpeers : e.peers = ep.peers) : ep.Caps e :=
  ⟨hcfg, fun _ => by rw [hpeers]⟩

theorem trans (h : ep.Caps e) (h' : e.Caps e') : ep.Caps e' := by
  refine ⟨h'.1.trans h.1, fun hcap => ?_⟩
  have hperm := h.2 hcap
  refine (h'.2 ?_).trans hperm
  rw [h.1, ← List.length_map (f := Peer.addr), hperm.length_eq, List.length_map]
  exact hcap

/-- A record is written back. -/
theorem of_rewrites {p : Peer} (h : ep.Rewrites p e) : ep.Caps e := by
  obtain ⟨hcfg, q, -, hpeers⟩ := h
  refine ⟨hcfg, fun _ => ?_⟩
  rw [hpeers]
  exact .of_eq (map_addr_modifyFirst q.addr (fun _ _ => rfl) ep.peers)

/-- A record is moved to the head. -/
theorem touchPeer {p : Peer} {a : UInt64} (hp : rdsPeerFind ep a = some p) :
    ep.Caps (ep.touchPeer p) := by
  refine ⟨rfl, fun _ => ?_⟩
  have hmem := List.mem_of_find?_eq_some hp
  obtain ⟨q, l₁, l₂, -, hq, hl, herase⟩ :=
    List.exists_of_eraseP hmem (p := (·.addr == p.addr)) (beq_self_eq_true p.addr)
  have hq : q.addr = p.addr := by simpa using hq
  show ((p :: ep.peers.eraseP _).map Peer.addr).Perm _
  rw [herase, hl, List.map_cons, ← hq]
  exact (List.perm_middle.map Peer.addr).symm

theorem ringSend (env : Env) (ep : Ep) (payload : List UInt8) (dest tag data : UInt64)
    (context : ℕ) (flags : UInt64) (tagged genComp : Bool) (op : UInt8) :
    ep.Caps (rdsRingSend env ep payload dest tag data context flags tagged genComp op).1 := by
  refine ⟨cfg_rdsRingSend env ep payload dest tag data context flags tagged genComp op,
    fun hcap => ?_⟩
  have hget := rdsPeerGet_of_capped env dest hcap
  -- at the cap the peer is there already
  have htouch {e : Ep} {p : Peer} (h : rdsPeerGet env ep dest = (e, some p)) :
      e = ep ∧ ep.Caps (ep.touchPeer p) := by
    obtain ⟨rfl, hp⟩ := Prod.mk.inj (h.symm.trans hget)
    exact ⟨rfl, touchPeer hp.symm⟩
  refine rdsRingSend_elim (fun _ => .refl _) (fun e h => ?_) (fun e p _ _ h _ => ?_)
    (fun e p h _ => ?_) (fun e p h _ _ => ?_)
  · obtain ⟨rfl, -⟩ := Prod.mk.inj (h.symm.trans hget)
    exact .refl _
  · obtain ⟨rfl, hcaps⟩ := htouch h
    exact (hcaps.trans (of_rewrites
      (rdsRingPlace_rewrites env _ p payload tag data context flags tagged genComp op))).2 hcap
  · obtain ⟨rfl, hcaps⟩ := htouch h
    exact hcaps.2 hcap
  · obtain ⟨rfl, hcaps⟩ := htouch h
    exact (hcaps.trans (of_rewrites (rdsRingConnect_rewrites env _ p))).2 hcap

theorem handleCtrl (env : Env) (ep : Ep) (hdr : Hdr) (payload : List UInt8) (srcFi : UInt64) :
    ep.Caps (rdsRingHandleCtrl env ep hdr payload srcFi) := by
  refine ⟨(rdsRingHandleCtrl_quiet env ep hdr payload srcFi
    (fun _ _ => RingInput.any_hears _ _ _)).cfg, fun hcap => ?_⟩
  have hget {e : Ep} {p? : Option Peer} (h : rdsPeerGet env ep srcFi = (e, p?)) : ep = e :=
    (Prod.mk.inj ((rdsPeerGet_of_capped env srcFi hcap).symm.trans h)).1
  have hset {e : Ep} {p : Peer} (hpeers : e.peers = ep.peers) :
      ((e.setPeer p).peers.map Peer.addr).Perm (ep.peers.map Peer.addr) := by
    rw [← hpeers]
    exact .of_eq (map_addr_modifyFirst p.addr (fun _ _ => rfl) e.peers)
  refine rdsRingHandleCtrl_elim (.refl _) (fun e h => hget h ▸ .refl _)
    (fun e p h => hget h ▸ .refl _) (fun e p h _ _ => hset (congrArg Ep.peers (hget h).symm))
    (fun e p h _ _ _ => hset ?_)
  rw [hget h]
  split
  · exact (rdsRingSendCtrl_cases env e _ rdsOpRingAck (.inr rfl)).2.1
  · rfl

theorem takesIn : Ep.TakesIn Ep.Caps where
  trans := trans
  offRing h := of_eq h.cfg h.peers
  handleCtrl := handleCtrl
  setPeer _ _ := of_rewrites (.setPeer rfl rfl rfl)
  returnCredit env ep p addr hp := by
    obtain ⟨-, h⟩ | ⟨-, h⟩ := rdsRingReturnCredit_cases env ep p
    · rw [h]
      exact of_rewrites (.setPeer rfl rfl rfl)
    · rw [h]
      exact of_rewrites (.setPeer rfl rfl rfl)

end Ep.Caps

/-! ## Out of use for good -/

/-- **The ring to an address is out of use**: its record is disabled, or there is none and
none will be made. -/
def Ep.Ringless (ep : Ep) (a : UInt64) : Prop :=
  (∃ p, rdsPeerFind ep a = some p ∧ p.state = .disabled)
    ∨ (rdsPeerFind ep a = none ∧ ep.cfg.ringMaxPeers ≤ ep.peers.length)

theorem rdsPeerFind_eq_none {ep : Ep} {a : UInt64} :
    rdsPeerFind ep a = none ↔ a ∉ ep.peers.map Peer.addr := by
  unfold rdsPeerFind
  rw [List.find?_eq_none, List.mem_map]
  constructor
  · rintro h ⟨p, hp, rfl⟩
    exact h p hp (beq_self_eq_true p.addr)
  · intro h p hp ha
    exact h ⟨p, hp, beq_iff_eq.mp ha⟩

namespace Ep.Ringless

variable {ep e : Ep} {a : UInt64}

/-- It stays so, if disabled records do and none is made at the cap. -/
theorem of_caps (h : ep.Ringless a) (hcaps : ep.Caps e)
    (hlasts : ∀ p, rdsPeerFind ep a = some p → ∃ q, rdsPeerFind e a = some q ∧ p.Lasts q) :
    e.Ringless a := by
  obtain ⟨p, hp, hdisabled⟩ | ⟨hnone, hcap⟩ := h
  · obtain ⟨q, hq, hpq⟩ := hlasts p hp
    exact .inl ⟨q, hq, hpq.disabled hdisabled⟩
  · have hperm := hcaps.2 hcap
    refine .inr ⟨?_, ?_⟩
    · rw [rdsPeerFind_eq_none, hperm.mem_iff, ← rdsPeerFind_eq_none]
      exact hnone
    · rw [hcaps.1, ← List.length_map (f := Peer.addr), hperm.length_eq, List.length_map]
      exact hcap

/-- Only the peers matter. -/
theorem congr (h : ep.Ringless a) (hcfg : e.cfg = ep.cfg) (hpeers : e.peers = ep.peers) :
    e.Ringless a := by
  unfold Ringless rdsPeerFind
  rw [hcfg, hpeers]
  exact h

end Ep.Ringless

/-- No write of a slot is answered with `ENOSYS`. -/
def Env.Supports (env : Env) : Prop := ∀ t op, env.sendmsg t (.rdma op) ≠ some fiEnosys

theorem rdsRingPlace_ne_enosys {env : Env} (henv : env.Supports) (ep : Ep) (p : Peer)
    (payload : List UInt8) (tag data : UInt64) (context : ℕ) (flags : UInt64)
    (tagged genComp : Bool) (op : UInt8) :
    (rdsRingPlace env ep p payload tag data context flags tagged genComp op).2
      ≠ .err fiEnosys := by
  refine rdsRingPlace_elim (fun _ _ _ => show Ret.err fiEagain ≠ .err fiEnosys by decide)
    (fun q slot e err _ _ _ hsend hret heq => ?_) (fun _ _ _ _ _ => nofun)
  -- the socket's answer is passed on
  rw [Ret.err.inj heq] at hret
  unfold sockRet at hret
  split at hret
  · exact absurd hret (by decide)
  · rw [Ret.err.inj hret] at hsend
    exact henv _ _ hsend

theorem rdsRingConnect_enosys {env : Env} {ep : Ep} {p : Peer} {e : Ep}
    (h : rdsRingConnect env ep p = (e, .err fiEnosys)) :
    ∃ e₀ : Ep, ∃ q : Peer, e = e₀.setPeer q ∧ e₀.peers = ep.peers ∧ q.addr = p.addr
      ∧ q.state = .disabled := by
  have hpeers := (rdsRingSendCtrl_cases env ep p rdsOpRingReq (.inl rfl)).2.1
  have hwaits {e' : Ep} (h : (e', Ret.err fiEagain) = (e, .err fiEnosys)) : False :=
    absurd (Prod.mk.inj h).2 (by decide)
  revert h
  refine rdsRingConnect_elim (fun _ _ _ _ _ h => (hwaits h).elim) (fun e' q _ he' hq _ h => ?_)
    (fun _ h => (hwaits h).elim) (fun _ _ h => ?_)
  · obtain ⟨rfl, -⟩ := Prod.mk.inj h
    exact ⟨_, _, rfl, he' ▸ hpeers, by rw [hq], rfl⟩
  · obtain ⟨rfl, -⟩ := Prod.mk.inj h
    exact ⟨_, _, rfl, rfl, rfl, rfl⟩

/-- A peer is found or created, unless the table is full. -/
theorem rdsPeerGet_none {env : Env} (halloc : env.AllocOk) {ep e : Ep} {a : UInt64} {sa : SockAddr}
    (hav : rdsAvAddr ep.cfg a = some sa) (h : rdsPeerGet env ep a = (e, none)) :
    e = ep ∧ rdsPeerFind ep a = none ∧ ep.cfg.ringMaxPeers ≤ ep.peers.length := by
  revert h
  refine rdsPeerGet_elim (fun _ _ => nofun) (fun hnone hwhy h => ?_)
    (fun _ _ hno => absurd halloc hno) (fun _ _ _ _ _ _ _ => nofun)
  refine ⟨(Prod.mk.inj h).1.symm, hnone, hwhy.resolve_right ?_⟩
  rw [hav]
  exact nofun

/-- **`rds_ring_send` says `ENOSYS` only if the ring is out of use**, of a message that fits a
slot. -/
theorem rdsRingSend_enosys {env : Env} (halloc : env.AllocOk) (henv : env.Supports) {ep e : Ep}
    {payload : List UInt8} {dest tag data : UInt64} {context : ℕ} {flags : UInt64}
    {tagged genComp : Bool} {op : UInt8} {sa : SockAddr} (hon : ep.cfg.eagerRdma = true)
    (hlen : payload.length ≤ ep.cfg.geom.payload) (hav : rdsAvAddr ep.cfg dest = some sa)
    (h : rdsRingSend env ep payload dest tag data context flags tagged genComp op
      = (e, .err fiEnosys)) : e.Ringless dest := by
  have htouched {e₁ : Ep} {p : Peer} (hget : rdsPeerGet env ep dest = (e₁, some p)) :
      rdsPeerFind (e₁.touchPeer p) dest = some p := by
    show (p :: _).find? _ = some p
    rw [List.find?_cons_of_pos]
    exact beq_iff_eq.mpr (rdsPeerGet_find hget).1
  revert h
  refine rdsRingSend_elim (fun hno => absurd hlen (not_le.mpr (hno hon))) (fun e₁ hget h => ?_)
    (fun e₁ p _ _ _ _ h => ?_) (fun e₁ p hget hdisabled h => ?_) (fun e₁ p hget _ _ h => ?_)
  · obtain ⟨rfl, hnone, hcap⟩ := rdsPeerGet_none halloc hav hget
    obtain ⟨rfl, -⟩ := Prod.mk.inj h
    exact .inr ⟨hnone, hcap⟩
  · exact absurd (congrArg Prod.snd h) (rdsRingPlace_ne_enosys henv _ _ _ _ _ _ _ _ _ _)
  · obtain ⟨rfl, -⟩ := Prod.mk.inj h
    exact .inl ⟨p, htouched hget, hdisabled⟩
  · obtain ⟨e₀, q, rfl, hpeers, hq, hdisabled⟩ := rdsRingConnect_enosys h
    have hfound : rdsPeerFind e₀ q.addr = some p := by
      rw [hq, (rdsPeerGet_find hget).1]
      unfold rdsPeerFind
      rw [hpeers]
      exact htouched hget
    have hself := rdsPeerFind_setPeer_self hfound
    rw [hq, (rdsPeerGet_find hget).1] at hself
    exact .inl ⟨q, hself, hdisabled⟩

/-! ## Sends -/

/-- Nothing happened that matters to the channels. -/
def Ep.Untried (ep ep' : Ep) : Prop :=
  ep'.cfg = ep.cfg ∧ ep'.peers = ep.peers ∧ ep'.wire = ep.wire ∧ ep'.writes = ep.writes

/-- **A send tries the ring once**, and puts its message on the socket only if the ring says
`ENOSYS`. Before that it may have registered its source. -/
def Ep.Tries (env : Env) (ep ep' : Ep) (destAddr : UInt64) (payload : List UInt8) (d : Dgram) :
    Prop :=
  ∃ e e₁ ret tag data context flags tagged genComp op, ep.Untried e
    ∧ rdsRingSend env e payload destAddr tag data context flags tagged genComp op = (e₁, ret)
    ∧ ep'.cfg = e₁.cfg ∧ ep'.peers = e₁.peers ∧ ep'.writes = e₁.writes
    ∧ (ep'.wire = e₁.wire ∨ (ret = .err fiEnosys ∧ ep'.wire = e₁.wire ++ [d]))

namespace Ep.Tries

variable {env : Env} {ep ep' : Ep} {destAddr : UInt64} {payload : List UInt8} {d : Dgram}

theorem caps (h : ep.Tries env ep' destAddr payload d) : ep.Caps ep' := by
  obtain ⟨e, e₁, ret, tag, data, context, flags, tagged, genComp, op, ⟨hcfg, hpeers, -⟩, hring,
    hcfg₁, hpeers₁, -⟩ := h
  have hcaps := Ep.Caps.ringSend env e payload destAddr tag data context flags tagged genComp op
  rw [hring] at hcaps
  exact (Ep.Caps.of_eq hcfg hpeers).trans (hcaps.trans (.of_eq hcfg₁ hpeers₁))

/-- **Only its own message is put on the socket**, and if it fits a slot, the ring is out of
use. -/
theorem spills (h : ep.Tries env ep' destAddr payload d) (hon : ep.cfg.eagerRdma = true)
    (halloc : env.AllocOk) (hav : rdsAvAddr ep.cfg destAddr = some d.dst) :
    ∃ l, ep'.wire = ep.wire ++ l ∧ ∀ x ∈ l, x.isMessage = true → x = d
      ∧ (env.Supports → payload.length ≤ ep.cfg.geom.payload → ep'.Ringless destAddr) := by
  obtain ⟨e, e₁, ret, tag, data, context, flags, tagged, genComp, op, ⟨hcfg, -, hwire, -⟩, hring,
    hcfg₁, hpeers₁, -, hwire₁⟩ := h
  -- the ring puts handshakes on the wire
  have hctrl : ∃ l, e₁.wire = ep.wire ++ l
      ∧ ∀ x ∈ l, x.hdr.op = rdsOpRingReq ∨ x.hdr.op = rdsOpRingAck := by
    rw [← hwire]
    obtain ⟨-, hquiet⟩ | ⟨-, -, e₂, p, _, _, _, hquiet, -, -, -, -, -, heq, -⟩ :=
      rdsRingSend_ring env e payload destAddr tag data context flags tagged genComp op
        (fun _ => RingInput.any_expires destAddr) hring
    · exact hquiet.wire
    · have hwire₂ : e₁.wire = e₂.wire := (congrArg Ep.wire heq :)
      rw [hwire₂]
      exact hquiet.wire
  obtain ⟨l, hl, hop⟩ := hctrl
  have hno (x : Dgram) (hx : x ∈ l) : x.isMessage ≠ true := by
    unfold Dgram.isMessage
    obtain hop | hop := hop x hx
    · rw [hop]
      decide
    · rw [hop]
      decide
  obtain hwire₁ | ⟨rfl, hwire₁⟩ := hwire₁
  · exact ⟨l, hwire₁.trans hl, fun x hx hmsg => absurd hmsg (hno x hx)⟩
  · refine ⟨l ++ [d], by rw [hwire₁, hl, List.append_assoc], fun x hx hmsg => ?_⟩
    obtain hx | hx := List.mem_append.mp hx
    · exact absurd hmsg (hno x hx)
    · refine ⟨List.mem_singleton.mp hx, fun henv hlen => ?_⟩
      rw [← hcfg] at hon hlen hav
      exact (rdsRingSend_enosys halloc henv hon hlen hav hring).congr hcfg₁ hpeers₁

/-- **A slot is posted only to a `READY` peer.** -/
theorem posts (h : ep.Tries env ep' destAddr payload d) :
    ∃ l, ep'.writes = ep.writes ++ l ∧ ∀ w ∈ l, ∃ p, rdsPeerFind ep' destAddr = some p
      ∧ p.state = .ready ∧ w.dst = p.sa := by
  obtain ⟨e, e₁, ret, tag, data, context, flags, tagged, genComp, op, ⟨-, -, -, hwrites⟩, hring, -,
    hpeers₁, hwrites₁, -⟩ := h
  rw [hwrites₁, ← hwrites]
  obtain ⟨-, hquiet⟩
    | ⟨-, -, e₂, p, flags', tag', data', hquiet, hp, haddr, hready, -, -, heq, hbook⟩ :=
    rdsRingSend_ring env e payload destAddr tag data context flags tagged genComp op
      (fun _ => RingInput.any_expires destAddr) hring
  · refine ⟨[], ?_, fun _ hw => by cases hw⟩
    rw [List.append_nil]
    exact (congrArg Ep.writes hquiet.eq :)
  · refine ⟨[p.slotWrite (p.fillSlot op flags' tag' data' payload)], ?_, fun w hw => ?_⟩
    · have hwrites₂ : e₂.writes = e.writes := (congrArg Ep.writes hquiet.eq :)
      rw [← hwrites₂]
      exact (congrArg Ep.writes heq :)
    · rw [List.mem_singleton.mp hw]
      refine ⟨p.advance (p.fillSlot op flags' tag' data' payload), ?_, hready, rfl⟩
      have htable : e₁.ringBook.table destAddr
          = some (p.advance (p.fillSlot op flags' tag' data' payload)) := by
        rw [hbook, ← haddr]
        exact RingBook.table_put_self e₂.ringBook (p.advance _)
      unfold rdsPeerFind
      rw [hpeers₁]
      exact htable

end Ep.Tries

/-- **An eager send**: the ring is tried, and then a datagram. -/
theorem eager_tries {env : Env} {ep e : Ep} {iov : List Iovec} {dest : SockAddr}
    {destAddr tag data : UInt64} {context : ℕ} {flags : UInt64} {tagged genComp : Bool} {ret : Ret}
    (hring : rdsRingSend env ep (gather env.mem iov) destAddr tag data context flags tagged genComp
      rdsOpEager = (e, ret)) {r : Ep × Ret} (hr : r = (e, ret) ∨ (ret = .err fiEnosys
        ∧ r = rdsSendEager env e iov dest tag data context flags tagged genComp)) :
    ep.Tries env r.1 destAddr (gather env.mem iov) ⟨ep.cfg.self, dest,
      (eagerHdr tagged flags tag data (ofiTotalIovLen iov)).encode ++ gather env.mem iov⟩ := by
  refine ⟨ep, e, ret, _, _, _, _, _, _, _, ⟨rfl, rfl, rfl, rfl⟩, hring, ?_⟩
  have hcfg := (congrArg (·.1.cfg) hring).symm.trans (cfg_rdsRingSend _ _ _ _ _ _ _ _ _ _ _)
  obtain rfl | ⟨rfl, rfl⟩ := hr
  · exact ⟨rfl, rfl, rfl, .inl rfl⟩
  · refine rdsSendEager_elim (fun _ _ _ _ _ => ⟨rfl, rfl, rfl, .inl rfl⟩)
      ⟨rfl, rfl, rfl, .inr ⟨rfl, ?_⟩⟩
    rw [← hcfg]

/-- **A request.** -/
theorem rdsSendRts_tries {env : Env} {ep₀ ep : Ep} {p : Pending} {bytes : List UInt8}
    {dest : SockAddr} {destAddr : UInt64} {r : Ep × Ret}
    (hr : rdsSendRts env ep p bytes dest destAddr = r) (h₀ : ep₀.Untried ep) :
    ep₀.Tries env r.1 destAddr bytes ⟨ep₀.cfg.self, dest, bytes⟩ := by
  subst hr
  rw [← h₀.1]
  exact rdsSendRts_elim
    (fun e err h => ⟨ep, e, _, _, _, _, _, _, _, _, h₀, h, rfl, rfl, rfl, .inl rfl⟩)
    (fun e err h => ⟨ep, e, _, _, _, _, _, _, _, _, h₀, h, rfl, rfl, rfl, .inl rfl⟩)
    (fun e h => ⟨ep, e, _, _, _, _, _, _, _, _, h₀, h, rfl, rfl, rfl, .inl rfl⟩)
    (fun e h => ⟨ep, e, _, _, _, _, _, _, _, _, h₀, h, rfl, rfl, rfl, .inr ⟨rfl, rfl⟩⟩)

theorem rdsSendRndzv_tries (env : Env) (ep : Ep) (iov : List Iovec) (dest : SockAddr)
    (tag data : UInt64) (context : ℕ) (flags : UInt64) (tagged genComp : Bool)
    (destAddr : UInt64) {r : Ep × Ret}
    (hr : rdsSendRndzv env ep iov dest tag data context flags tagged genComp destAddr = r) :
    ep.Untried r.1 ∨ ∃ segs, ep.Tries env r.1 destAddr
      ((rtsHdr tagged flags (rdsNseg iov) tag data (ofiTotalIovLen iov) (succId ep.opId)).encode
        ++ encodeSegs segs)
      ⟨ep.cfg.self, dest,
        (rtsHdr tagged flags (rdsNseg iov) tag data (ofiTotalIovLen iov) (succId ep.opId)).encode
          ++ encodeSegs segs⟩ := by
  subst hr
  exact rdsSendRndzv_elim (fun _ _ => .inl ⟨rfl, rfl, rfl, rfl⟩)
    (fun _ _ _ _ _ _ _ => .inl ⟨rfl, rfl, rfl, rfl⟩)
    (fun _ segs _ _ _ _ _ => .inr ⟨segs, rdsSendRts_tries rfl ⟨rfl, rfl, rfl, rfl⟩⟩)

/-- **What `rds_generic_send` puts on the socket.** -/
theorem rdsGenericSend_tries (env : Env) (ep : Ep) (iov : List Iovec)
    (destAddr tag data : UInt64) (context : ℕ) (flags : UInt64) (tagged : Bool) {r : Ep × Ret}
    (hr : rdsGenericSend env ep iov destAddr tag data context flags tagged = r) :
    ep.Untried r.1 ∨ ∃ payload d, rdsAvAddr ep.cfg destAddr = some d.dst
      ∧ ep.Tries env r.1 destAddr payload d
      ∧ ((d.hdr.op = rdsOpEager ∧ payload.length ≤ ep.cfg.eagerLimit)
        ∨ (d.hdr.op = rdsOpRts ∧ d.bytes = payload)) := by
  subst hr
  have heager {dest : SockAddr} {d : Dgram} (hdest : rdsAvAddr ep.cfg destAddr = some dest)
      (hsmall : ofiTotalIovLen iov ≤ ep.cfg.eagerLimit) (hd : d = ⟨ep.cfg.self, dest,
        (eagerHdr tagged flags tag data (ofiTotalIovLen iov)).encode ++ gather env.mem iov⟩)
      {ep' : Ep} (htries : ep.Tries env ep' destAddr (gather env.mem iov) d) :
      ∃ payload d, rdsAvAddr ep.cfg destAddr = some d.dst ∧ ep.Tries env ep' destAddr payload d
        ∧ ((d.hdr.op = rdsOpEager ∧ payload.length ≤ ep.cfg.eagerLimit)
          ∨ (d.hdr.op = rdsOpRts ∧ d.bytes = payload)) := by
    refine ⟨_, d, hd ▸ hdest, htries, .inl ⟨?_, (length_gather _ _).trans_le hsmall⟩⟩
    rw [hd, Dgram.hdr, Hdr.decode_encode]
    rfl
  refine rdsGenericSend_elim (fun _ => .inl ⟨rfl, rfl, rfl, rfl⟩)
    (fun dest _ e ret hdest _ _ hsmall h _ => .inr (heager hdest hsmall rfl
      (eager_tries h (.inl rfl))))
    (fun dest _ e hdest _ _ hsmall h => .inr (heager hdest hsmall rfl
      (eager_tries h (.inr ⟨rfl, rfl⟩))))
    (fun dest genComp _ hdest _ _ _ => ?_)
  obtain huntried | ⟨segs, htries⟩ :=
    rdsSendRndzv_tries env ep iov dest tag data context flags tagged genComp destAddr rfl
  · exact .inl huntried
  · refine .inr ⟨_, _, hdest, htries, .inr ⟨?_, rfl⟩⟩
    rw [Dgram.hdr, Hdr.decode_encode]
    rfl

/-- **What `rds_generic_inject` puts on the socket.** -/
theorem rdsGenericInject_tries (env : Env) (ep : Ep) (buf len : ℕ) (destAddr tag : UInt64)
    (tagged : Bool) {r : Ep × Ret}
    (hr : rdsGenericInject env ep buf len destAddr tag tagged = r) :
    ep.Untried r.1 ∨ ∃ payload d, rdsAvAddr ep.cfg destAddr = some d.dst
      ∧ ep.Tries env r.1 destAddr payload d ∧ d.hdr.op = rdsOpEager ∧ payload.length = len
      ∧ len ≤ ep.cfg.eagerSize := by
  subst hr
  have hop {dest : SockAddr} : (⟨ep.cfg.self, dest, (eagerHdr tagged 0 tag 0 (ofiTotalIovLen
      [⟨buf, len⟩])).encode ++ gather env.mem [⟨buf, len⟩]⟩ : Dgram).hdr.op = rdsOpEager := by
    rw [Dgram.hdr, Hdr.decode_encode]
    rfl
  have hlength := (length_gather env.mem _).trans (ofiTotalIovLen_single buf len)
  exact rdsGenericInject_elim (fun _ => .inl ⟨rfl, rfl, rfl, rfl⟩) (.inl ⟨rfl, rfl, rfl, rfl⟩)
    (fun dest e ret hdest hlen h _ => .inr ⟨_, _, hdest, eager_tries h (.inl rfl), hop, hlength,
      hlen⟩)
    (fun dest e hdest hlen h => .inr ⟨_, _, hdest, eager_tries h (.inr ⟨rfl, rfl⟩), hop, hlength,
      hlen⟩)

/-! ## Every action -/

/-- The address a message is sent to. -/
def EpAct.dest? : EpAct → Option UInt64
  | .send _ _ destAddr .. => some destAddr
  | .inject _ _ _ destAddr .. => some destAddr
  | _ => none

/-- A message that belongs on the ring: any but a request that is too long for a slot. -/
def Dgram.ringable (g : RingGeom) (d : Dgram) : Bool :=
  d.isMessage && !(d.hdr.op == rdsOpRts && g.payload < d.bytes.length)

/-- **What the order of messages needs of a call**: the socket has the writes of slots, and
nothing is injected that does not fit a slot, unless it is refused for its length. -/
def EpAct.Orderly (cfg : EpCfg) : EpAct → Prop
  | .send env .. => env.Supports
  | .inject env _ len .. => env.Supports ∧ (len ≤ cfg.geom.payload ∨ cfg.eagerSize < len)
  | _ => True

/-- What is taken in, and what is not of the ring, is every action that sends no message. -/
theorem Ep.TakesIn.act {R : Ep → Ep → Prop} (hR : Ep.TakesIn R)
    (hland : ∀ (ep : Ep) (a : UInt64) (f : Peer → Peer), (∀ p, (f p).addr = p.addr) →
      R ep (ep.updPeer a f)) (ep : Ep) {x : EpAct} (hx : x.dest? = none) : R ep (ep.act x) := by
  cases x with
  | send | inject => cases hx
  | postRecv env iov addr tag ignore context flags tagged =>
    exact hR.offRing (Ep.Inward.postRecv env ep iov addr tag ignore context flags tagged).toOffRing
  | cancel context => exact hR.offRing (Ep.Inward.cancel ep context).toOffRing
  | rma env iov remoteFi remoteOff key isWrite context flags =>
    exact hR.offRing (Ep.Inward.startsRma
      (rdsRmaCommon_starts env ep iov remoteFi remoteOff key isWrite context flags)).toOffRing
  | injectWrite env buf len destAddr addr key =>
    exact hR.offRing (Ep.Inward.startsRma
      (rdsInjectWrite_starts env ep buf len destAddr addr key)).toOffRing
  | recv env src bytes =>
    exact rdsRecvDgram_elim (motive := R ep) (hR.refl ep) (hR.handleInbound env ep _ _ src _)
  | notify env op status =>
    have herase : ep.OffRing { ep with inflight := ep.inflight.erase op } :=
      .of_eq rfl rfl rfl rfl
    exact hR.offRing (herase.trans (.handleRdmaNotify env _ op.token status))
  | retry env => exact hR.offRing (.progressDeferred env ep)
  | poll env addr =>
    show R ep ((rdsRingPollSlot env ep addr).getD ep)
    cases hslot : rdsRingPollSlot env ep addr with
    | none => exact hR.refl ep
    | some e => exact hR.ringPollSlot env ep addr e hslot
  | flush env addr => exact hR.ringFlushCredit env ep addr
  | landSlot addr idx slot => exact hland ep addr _ (fun _ => rfl)
  | landCredit addr value => exact hland ep addr _ (fun _ => rfl)
  | shareDomain domain => exact hR.offRing (.of_eq rfl rfl rfl rfl)

/-- **No message was sent**, neither on the socket nor in a ring. -/
structure Ep.Unsent (ep e : Ep) : Prop where
  wire : ∃ l, e.wire = ep.wire ++ l ∧ ∀ d ∈ l, d.isMessage = false
  writes : ∃ l, e.writes = ep.writes ++ l ∧ ∀ w ∈ l, ∀ sa, w.slotTo sa = none

theorem Ep.Unsent.of_writes {ep e : Ep} (hwire : ∃ l, e.wire = ep.wire ++ l
    ∧ ∀ d ∈ l, d.isMessage = false) (hwrites : e.writes = ep.writes) : ep.Unsent e :=
  ⟨hwire, [], by rw [hwrites, List.append_nil], fun _ hw => by cases hw⟩

theorem Ep.Unsent.takesIn : Ep.TakesIn Ep.Unsent where
  trans h h' := by
    obtain ⟨⟨l, hl, hmsg⟩, w, hw, hslot⟩ := h
    obtain ⟨⟨l', hl', hmsg'⟩, w', hw', hslot'⟩ := h'
    refine ⟨⟨l ++ l', ?_, List.forall_mem_append.mpr ⟨hmsg, hmsg'⟩⟩, w ++ w', ?_,
      List.forall_mem_append.mpr ⟨hslot, hslot'⟩⟩
    · rw [hl', hl, List.append_assoc]
    · rw [hw', hw, List.append_assoc]
  offRing h := by
    obtain ⟨l, hl, hfin⟩ := h.op_wire
    refine .of_writes ⟨l, hl, fun d hd => ?_⟩ h.writes
    unfold Dgram.isMessage
    rw [hfin d hd]
    decide
  handleCtrl env ep hdr payload srcFi := by
    have hquiet : ep.RingQuiet .any (rdsRingHandleCtrl env ep hdr payload srcFi) :=
      rdsRingHandleCtrl_quiet env ep hdr payload srcFi (fun _ _ => trivial)
    obtain ⟨l, hl, hctrl⟩ := hquiet.wire
    refine .of_writes ⟨l, hl, fun d hd => ?_⟩ (by rw [hquiet.eq])
    unfold Dgram.isMessage
    obtain hop | hop := hctrl d hd
    · rw [hop]
      decide
    · rw [hop]
      decide
  setPeer _ _ := .of_writes ⟨[], (List.append_nil _).symm, fun _ hd => by cases hd⟩ rfl
  returnCredit env ep p addr hp := by
    obtain ⟨-, h⟩ | ⟨-, h⟩ := rdsRingReturnCredit_cases env ep p
    · rw [h]
      exact .of_writes ⟨[], (List.append_nil _).symm, fun _ hd => by cases hd⟩ rfl
    · rw [h]
      refine ⟨⟨[], (List.append_nil _).symm, fun _ hd => by cases hd⟩, _, rfl, fun w hw sa => ?_⟩
      rw [List.mem_singleton.mp hw]
      rfl

namespace Ep

variable (ep : Ep)

theorem act_unsent {x : EpAct} (hx : x.dest? = none) : ep.Unsent (ep.act x) :=
  Unsent.takesIn.act (fun _ _ _ _ =>
    .of_writes ⟨[], (List.append_nil _).symm, fun _ hd => by cases hd⟩ rfl) ep hx

theorem act_caps (x : EpAct) : ep.Caps (ep.act x) := by
  cases hx : x.dest? with
  | none =>
    refine Caps.takesIn.act (fun ep a f hf => ⟨rfl, fun _ => ?_⟩) ep hx
    exact .of_eq (map_addr_modifyFirst a (fun p hp => (hf p).trans hp) ep.peers)
  | some a =>
    cases x with
    | send env iov destAddr tag data context flags tagged =>
      obtain ⟨hcfg, hpeers, -⟩ | ⟨payload, d, -, htries, -⟩ :=
        rdsGenericSend_tries env ep iov destAddr tag data context flags tagged rfl
      · exact .of_eq hcfg hpeers
      · exact htries.caps
    | inject env buf len destAddr tag tagged =>
      obtain ⟨hcfg, hpeers, -⟩ | ⟨payload, d, -, htries, -⟩ :=
        rdsGenericInject_tries env ep buf len destAddr tag tagged rfl
      · exact .of_eq hcfg hpeers
      · exact htries.caps
    | _ => cases hx

/-- A record that is `READY`. -/
def ReadyFor (a : UInt64) (sa : SockAddr) : Prop :=
  ∃ p, rdsPeerFind ep a = some p ∧ p.state = .ready ∧ p.sa = sa

variable {ep}

/-- **What a call puts on the channels.** A message that fits a slot is put on the socket only
if the ring is out of use, and a slot is posted only to a `READY` peer. -/
theorem act_sends {x : EpAct} {a : UInt64} (hx : x.dest? = some a)
    (hon : ep.cfg.eagerRdma = true) (halloc : ∀ env, x.env? = some env → env.AllocOk) :
    (∃ l, (ep.act x).wire = ep.wire ++ l ∧ ∀ d ∈ l, d.ringable ep.cfg.geom = true →
        rdsAvAddr ep.cfg a = some d.dst ∧ (x.Orderly ep.cfg → (ep.act x).Ringless a))
      ∧ ∃ l, (ep.act x).writes = ep.writes ++ l ∧ ∀ w ∈ l, (ep.act x).ReadyFor a w.dst := by
  have huntried {e : Ep} (h : ep.Untried e) :
      (∃ l, e.wire = ep.wire ++ l ∧ ∀ d ∈ l, d.ringable ep.cfg.geom = true →
        rdsAvAddr ep.cfg a = some d.dst ∧ (x.Orderly ep.cfg → e.Ringless a))
      ∧ ∃ l, e.writes = ep.writes ++ l ∧ ∀ w ∈ l, e.ReadyFor a w.dst := by
    obtain ⟨-, -, hwire, hwrites⟩ := h
    exact ⟨⟨[], by rw [hwire, List.append_nil], nofun⟩, [], by rw [hwrites, List.append_nil], nofun⟩
  have htried {env : Env} {e : Ep} {payload : List UInt8} {d : Dgram} (henv : x.env? = some env)
      (htries : ep.Tries env e a payload d) (hav : rdsAvAddr ep.cfg a = some d.dst)
      (hfits : d.ringable ep.cfg.geom = true → x.Orderly ep.cfg →
        env.Supports ∧ payload.length ≤ ep.cfg.geom.payload) :
      (∃ l, e.wire = ep.wire ++ l ∧ ∀ d ∈ l, d.ringable ep.cfg.geom = true →
        rdsAvAddr ep.cfg a = some d.dst ∧ (x.Orderly ep.cfg → e.Ringless a))
      ∧ ∃ l, e.writes = ep.writes ++ l ∧ ∀ w ∈ l, e.ReadyFor a w.dst := by
    constructor
    · obtain ⟨l, hl, hspills⟩ := htries.spills hon (halloc env henv) hav
      refine ⟨l, hl, fun y hy hring => ?_⟩
      obtain ⟨rfl, hless⟩ := hspills y hy (Bool.and_elim_left hring)
      refine ⟨hav, fun horder => ?_⟩
      obtain ⟨hsupports, hlen⟩ := hfits hring horder
      exact hless hsupports hlen
    · obtain ⟨l, hl, hposts⟩ := htries.posts
      refine ⟨l, hl, fun w hw => ?_⟩
      obtain ⟨p, hp, hready, hdst⟩ := hposts w hw
      exact ⟨p, hp, hready, hdst.symm⟩
  cases x with
  | send env iov destAddr tag data context flags tagged =>
    cases hx
    obtain hnone | ⟨payload, d, hav, htries, hkind⟩ :=
      rdsGenericSend_tries env ep iov a tag data context flags tagged rfl
    · exact huntried hnone
    · refine htried rfl htries hav (fun hring horder => ⟨horder, ?_⟩)
      obtain ⟨-, hlen⟩ | ⟨hop, hbytes⟩ := hkind
      · rwa [EpCfg.eagerLimit, if_pos hon] at hlen
      · -- a request that is too long is no concern of the ring
        unfold Dgram.ringable at hring
        rw [hop, hbytes] at hring
        simpa [Dgram.isMessage, hop] using hring
  | inject env buf len destAddr tag tagged =>
    cases hx
    obtain hnone | ⟨payload, d, hav, htries, -, hlen, hle⟩ :=
      rdsGenericInject_tries env ep buf len a tag tagged rfl
    · exact huntried hnone
    · refine htried rfl htries hav (fun _ horder => ⟨horder.1, ?_⟩)
      rw [hlen]
      exact horder.2.resolve_right (not_lt.mpr hle)
  | _ => cases hx

/-- **A ring that is out of use stays out of use.** -/
theorem Ringless.act {a : UInt64} (h : ep.Ringless a) (x : EpAct) : (ep.act x).Ringless a :=
  h.of_caps (ep.act_caps x) (fun _ hp => (ep.act_ring x).2.lasts hp)

end Ep

/-- **A record that is `READY` stays `READY`**, if no other geometry is heard of. -/
theorem RingBook.Rules.stays_ready {cfg : EpCfg} {inp : RingInput} {b b' : RingBook}
    (h : Rules cfg inp b b') {a : UInt64} (hgeom : ∀ op i, inp.hears a op i →
      i.slots = cfg.geom.slots ∧ i.slotSize = cfg.geom.slotSize) {p : Peer}
    (hp : b.table a = some p) (haddr : p.addr = a) (hready : p.state = .ready) :
    ∃ p', b'.table a = some p' ∧ p'.addr = a ∧ p'.state = .ready := by
  induction h with
  | refl => exact ⟨p, hp, haddr, hready⟩
  | tail _ hstep ih =>
    obtain ⟨q, hq, hqaddr, hqready⟩ := ih
    obtain ⟨q', hq', hlasts⟩ := hstep.lasts hq
    refine ⟨q', hq', hlasts.addr.trans hqaddr, ?_⟩
    obtain ⟨hnone, -⟩ | ⟨r, hr, -, hturns⟩ := hstep.turns hq'
    · cases hnone.symm.trans hq
    · cases hr.symm.trans hq
      cases hturns with
      | stays hstate => exact hstate.trans hqready
      | kicked hstate =>
        rw [hqready] at hstate
        cases hstate
      | expired hstate =>
        rw [hqready] at hstate
        cases hstate
      | refused _ hin hne =>
        rw [hqaddr] at hin
        obtain ⟨hslots, hsize⟩ := hgeom _ _ hin
        exact hne.elim (absurd hslots) (absurd hsize)
      | adopted _ hstate => exact hstate

/-- **What a book tells of its endpoint**: its handshakes carry its own geometry, its slots no
handshake, and a `READY` record has its geometry. -/
structure RingBook.Plain (cfg : EpCfg) (b : RingBook) : Prop where
  ctrl : ∀ x ∈ b.ctrl, x.2.2.slots = cfg.geom.slots ∧ x.2.2.slotSize = cfg.geom.slotSize
  writes : ∀ w ∈ b.writes, ∀ idx slot, w.loc = .stage idx slot → slot.ctrl? = none
  ready : ∀ a p, b.table a = some p → p.Fits cfg.geom

namespace RingBook.Plain

variable {cfg : EpCfg} {inp : RingInput} {b b' : RingBook}

theorem put (hb : b.Plain cfg) {q : Peer} (hq : q.Fits cfg.geom) : (b.put q).Plain cfg := by
  refine ⟨hb.ctrl, hb.writes, fun a p hp => ?_⟩
  by_cases ha : a = q.addr
  · rw [ha, table_put_self] at hp
    cases hp
    exact hq
  · rw [table_put_of_ne b ha] at hp
    exact hb.ready a p hp

theorem sending {p : Peer} {op : UInt8} {ctrl : List (SockAddr × UInt8 × RingInfo)}
    (hb' : b'.Plain cfg) (hctrl : b'.ctrl = b.ctrl) (h : b.Sends cfg.geom p op ctrl) :
    (b'.sending ctrl).Plain cfg := by
  refine ⟨fun x hx => ?_, hb'.writes, hb'.ready⟩
  obtain rfl | ⟨i, hinfo, rfl⟩ := h
  · exact hb'.ctrl x (hctrl ▸ hx)
  · obtain hx | hx := List.mem_append.mp hx
    · exact hb'.ctrl x (hctrl ▸ hx)
    · obtain ⟨ring, credit, -, -, rfl⟩ := Peer.info?_eq_some hinfo
      rw [List.mem_singleton.mp hx]
      exact ⟨rfl, rfl⟩

theorem posting (hb : b.Plain cfg) {w : RdmaOp}
    (hw : ∀ idx slot, w.loc = .stage idx slot → slot.ctrl? = none) : (b.posting w).Plain cfg := by
  refine ⟨hb.ctrl, fun v hv => ?_, hb.ready⟩
  obtain hv | hv := List.mem_append.mp hv
  · exact hb.writes v hv
  · rw [List.mem_singleton.mp hv]
    exact hw

theorem rule (hb : b.Plain cfg) (h : Rule cfg inp b b') : b'.Plain cfg := by
  -- a record whose handshake is left alone
  have hkeep {p q : Peer} (hp : b.table p.addr = some p) (hstate : q.state = p.state)
      (hslots : q.remSlots = p.remSlots) (hsize : q.remSlotSize = p.remSlotSize) :
      q.Fits cfg.geom := by
    unfold Peer.Fits
    rw [hstate, hslots, hsize]
    exact hb.ready _ p hp
  have hcredit {p : Peer} {v : UInt64} (hp : b.table p.addr = some p) :
      (b.put (p.absorbAck v)).Plain cfg := by
    obtain ⟨t, ht, -⟩ := p.absorbAck_eq v
    rw [ht]
    exact hb.put (hkeep hp rfl rfl rfl)
  cases h with
  | quiet h =>
    cases h with
    | create _ _ hq =>
      obtain ⟨ring, credit, rfl⟩ | rfl := hq
      · exact hb.put nofun
      · exact hb.put nofun
    | @kick p t _ _ _ hctrl =>
      have hput : (b.put { p with state := .connecting, connectStartMs := t }).Plain cfg :=
        hb.put nofun
      exact hput.sending rfl hctrl
    | expire | refuse => exact hb.put nofun
    | @adopt p _ i _ _ _ _ _ _ hslots hsize hctrl =>
      have hput : (b.put (p.adopted i)).Plain cfg := hb.put (fun _ => ⟨hslots, hsize⟩)
      exact hput.sending rfl hctrl
    | refresh hp => exact hcredit hp
    | stage hp => exact hb.put (hkeep hp rfl rfl rfl)
  | @place p op flags tag data payload hp _ _ _ hctrl =>
    have hput : (b.put (p.advance (p.fillSlot op flags tag data payload))).Plain cfg :=
      hb.put (hkeep hp rfl rfl rfl)
    refine hput.posting (fun idx slot hloc => ?_)
    cases hloc
    exact hctrl
  | absorb hp => exact hcredit hp
  | @credit p hp =>
    have hput : (b.put { p with creditTx := p.rxHead, rxCreditSent := p.rxHead }).Plain cfg :=
      hb.put (hkeep hp rfl rfl rfl)
    exact hput.posting (fun idx slot hloc => by cases hloc)
  | consume hp | withhold hp | land hp | landCredit hp => exact hb.put (hkeep hp rfl rfl rfl)

theorem rules (hb : b.Plain cfg) (h : Rules cfg inp b b') : b'.Plain cfg := by
  induction h with
  | refl => exact hb
  | tail _ hstep ih => exact ih.rule hstep

end RingBook.Plain
