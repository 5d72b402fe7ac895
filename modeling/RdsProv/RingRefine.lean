import RdsProv.RingBook
import RdsProv.Custody

/-!
# The ring code follows the rules

Each function that touches a peer is put under the rules of the ring book. Along
the way the rest of the state is accounted for: `Ep.RingSide` says that nothing but
the peers, the registrations and the handshakes sent changed, and `Ep.RingRegs` that
the registrations made for peers are held by them.
-/

/-- The ring book of an endpoint. -/
def Ep.ringBook (ep : Ep) : RingBook where
  table := rdsPeerFind ep
  ctrl := ep.wire.filterMap (fun d => d.ctrl?.map (d.dst, ·))
  writes := ep.writes

/-- A step that does not involve the ring leaves the book alone. -/
theorem Ep.OffRing.ringBook {ep ep' : Ep} (h : ep.OffRing ep') : ep'.ringBook = ep.ringBook := by
  obtain ⟨l, hl, hfin⟩ := h.op_wire
  have hnone : l.filterMap (fun d => d.ctrl?.map (d.dst, ·)) = [] := by
    refine List.filterMap_eq_nil_iff.mpr (fun d hd => ?_)
    rw [Dgram.ctrl?_eq_none (by rw [hfin d hd]; decide)]
    rfl
  unfold Ep.ringBook rdsPeerFind
  rw [hl, List.filterMap_append, hnone, List.append_nil, h.peers, h.writes]

/-- **Nothing but peers, registrations and handshakes changed.** -/
structure Ep.RingSide (ep ep' : Ep) : Prop where
  eq : ep' = { ep with
    peers := ep'.peers, domain := ep'.domain, tick := ep'.tick, wire := ep'.wire }
  wire : ∃ l, ep'.wire = ep.wire ++ l
    ∧ ∀ d ∈ l, d.hdr.op = rdsOpRingReq ∨ d.hdr.op = rdsOpRingAck

namespace Ep.RingSide

/-- A step that sent nothing. -/
theorem of_eq {ep ep' : Ep} (h : ep' = { ep with
    peers := ep'.peers, domain := ep'.domain, tick := ep'.tick }) : ep.RingSide ep' := by
  rw [h]
  exact ⟨rfl, [], (List.append_nil _).symm, by simp⟩

theorem refl (ep : Ep) : ep.RingSide ep := of_eq rfl

theorem trans {e₁ e₂ e₃ : Ep} (h : e₁.RingSide e₂) (h' : e₂.RingSide e₃) : e₁.RingSide e₃ where
  eq := by
    rw [h'.eq, h.eq]
  wire := by
    obtain ⟨l, hl, hop⟩ := h.wire
    obtain ⟨l', hl', hop'⟩ := h'.wire
    refine ⟨l ++ l', by rw [hl', hl, List.append_assoc], fun d hd => ?_⟩
    obtain hd | hd := List.mem_append.mp hd
    · exact hop d hd
    · exact hop' d hd

theorem cfg {ep ep' : Ep} (h : ep.RingSide ep') : ep'.cfg = ep.cfg := by rw [h.eq]

theorem writes {ep ep' : Ep} (h : ep.RingSide ep') : ep'.writes = ep.writes := by rw [h.eq]

end Ep.RingSide

/-- The handles a peer record holds: those of its ring and its credit cell. -/
def Peer.mrHandles (p : Peer) : List ℕ :=
  (p.rxRingMr.toList ++ p.creditMr.toList).map RdsMr.handle

/-- The handles the peers of an endpoint hold. -/
def Ep.ringHeld (ep : Ep) : Multiset ℕ := (ep.peers.flatMap Peer.mrHandles : List ℕ)

/-- **What was registered for peers is held by them**, whoever holds the rest. -/
def Ep.RingRegs (ep ep' : Ep) : Prop :=
  ∀ cached plain, ep.domain.Custody False cached (ep.ringHeld + plain) →
    ep'.domain.Custody False cached (ep'.ringHeld + plain)

namespace Ep.RingRegs

/-- Nothing was registered. -/
theorem of_eq {ep ep' : Ep} (hdom : ep'.domain = ep.domain) (hheld : ep'.ringHeld = ep.ringHeld) :
    ep.RingRegs ep' := by
  intro cached plain h
  rw [hdom, hheld]
  exact h

theorem refl (ep : Ep) : ep.RingRegs ep := of_eq rfl rfl

theorem trans {e₁ e₂ e₃ : Ep} (h : e₁.RingRegs e₂) (h' : e₂.RingRegs e₃) : e₁.RingRegs e₃ :=
  fun cached plain hc => h' cached plain (h cached plain hc)

end Ep.RingRegs

/-- Writing back a record that holds what it held. -/
theorem Ep.ringHeld_setPeer {ep : Ep} {p q : Peer} (h : rdsPeerFind ep q.addr = some p)
    (hq : q.mrHandles = p.mrHandles) : (ep.setPeer q).ringHeld = ep.ringHeld := by
  obtain ⟨l₁, l₂, hl, -, -, -, hmod⟩ := List.find?_split h
  unfold Ep.ringHeld Ep.setPeer
  rw [hmod, hl, List.flatMap_append, List.flatMap_append, List.flatMap_cons, List.flatMap_cons, hq]

theorem Ep.ringHeld_touchPeer {ep : Ep} {p : Peer} (h : rdsPeerFind ep p.addr = some p) :
    (ep.touchPeer p).ringHeld = ep.ringHeld := by
  obtain ⟨l₁, l₂, hl, -, -, herase, -⟩ := List.find?_split h
  unfold Ep.ringHeld Ep.touchPeer
  rw [herase, hl]
  exact Multiset.coe_eq_coe.mpr (List.Perm.flatMap_right _ List.perm_middle.symm)

/-- **A quiet step of the ring.** -/
structure Ep.RingQuiet (inp : RingInput) (ep ep' : Ep) : Prop extends Ep.RingSide ep ep' where
  book : RingBook.Quiets ep.cfg inp ep.ringBook ep'.ringBook
  regs : ep.RingRegs ep'

namespace Ep.RingQuiet

variable {inp : RingInput}

/-- Time passes. -/
theorem of_eq {ep ep' : Ep} (h : ep' = { ep with tick := ep'.tick }) : ep.RingQuiet inp ep' := by
  rw [h]
  exact ⟨.of_eq rfl, .refl, .refl _⟩

theorem refl (ep : Ep) : ep.RingQuiet inp ep := of_eq rfl

theorem trans {e₁ e₂ e₃ : Ep} (h : e₁.RingQuiet inp e₂) (h' : e₂.RingQuiet inp e₃) :
    e₁.RingQuiet inp e₃ where
  toRingSide := h.toRingSide.trans h'.toRingSide
  book := h.book.trans (h.cfg ▸ h'.book)
  regs := h.regs.trans h'.regs

end Ep.RingQuiet

/-! ## Finding and creating peers -/

theorem Ep.ringBook_setPeer {ep : Ep} {p q : Peer} (h : rdsPeerFind ep q.addr = some p) :
    (ep.setPeer q).ringBook = ep.ringBook.put q := by
  unfold Ep.ringBook RingBook.put
  rw [rdsPeerFind_setPeer h]
  rfl

theorem Ep.put_ringBook {ep : Ep} {p : Peer} (h : rdsPeerFind ep p.addr = some p) :
    ep.ringBook.put p = ep.ringBook := by
  unfold Ep.ringBook RingBook.put
  rw [← h, Function.update_eq_self]

theorem Ep.ringBook_touchPeer {ep : Ep} {p : Peer} (h : rdsPeerFind ep p.addr = some p) :
    (ep.touchPeer p).ringBook = ep.ringBook := by
  unfold Ep.ringBook
  rw [rdsPeerFind_touchPeer h]
  rfl

/-- **A registration changes the domain only**, and is held if it succeeded. -/
theorem Ep.regInternal_cases (env : Env) (ep : Ep) (r : Region) :
    ∃ dom mr, ep.regInternal env r = ({ ep with domain := dom }, mr)
      ∧ ∀ cached plain, ep.domain.Custody False cached plain →
        dom.Custody False cached ((mr.toList.map RdsMr.handle : List ℕ) + plain) := by
  unfold Ep.regInternal
  cases hres : rdsRegInternal env ep.domain ep.cfg.sock r with
  | mk dom res =>
    have hreg (cached plain : Multiset ℕ) (h : ep.domain.Custody False cached plain) :=
      Domain.Custody.regInternal (fun hf => hf.elim) h ep.cfg.sock r hres
    cases res with
    | error e => exact ⟨dom, none, rfl, fun cached plain h => by simpa using hreg cached plain h⟩
    | ok mr => exact ⟨dom, some mr, rfl, fun cached plain h => by simpa using hreg cached plain h⟩

theorem Ep.mrPut_cases (ep : Ep) (mr : Option RdsMr) :
    ∃ dom, ep.mrPut mr = { ep with domain := dom }
      ∧ ∀ cached plain,
        ep.domain.Custody False cached ((mr.toList.map RdsMr.handle : List ℕ) + plain) →
        dom.Custody False cached plain := by
  cases mr with
  | none => exact ⟨ep.domain, rfl, fun cached plain h => by simpa using h⟩
  | some mr => exact ⟨_, rfl, fun cached plain h => Domain.Custody.mrPut (by simpa using h)⟩

/-- **A new record has a ring and a credit cell, or is disabled**; it holds what was
registered for it. -/
theorem rdsPeerRegister_cases (env : Env) (ep : Ep) (a : UInt64) (sa : SockAddr)
    (ring credit : ℕ) :
    ∃ dom p, rdsPeerRegister env ep (Peer.blank a sa) ring credit = ({ ep with domain := dom }, p)
      ∧ p.Created a sa
      ∧ ∀ cached plain, ep.domain.Custody False cached plain →
        dom.Custody False cached ((p.mrHandles : Multiset ℕ) + plain) := by
  unfold rdsPeerRegister
  dsimp only
  generalize (⟨ring, ep.cfg.geom.slots.toNat * ep.cfg.geom.slotSize.toNat⟩ : Region) = region
  obtain ⟨dom₁, ringMr, h₁, hreg₁⟩ := ep.regInternal_cases env region
  rw [h₁]
  dsimp only
  obtain ⟨dom₂, creditMr, h₂, hreg₂⟩ :=
    Ep.regInternal_cases env { ep with domain := dom₁ } ⟨credit, 8⟩
  rw [h₂]
  dsimp only
  have hboth (cached plain : Multiset ℕ) (h : ep.domain.Custody False cached plain) :=
    hreg₂ cached _ (hreg₁ cached plain h)
  split
  · rename_i hsome
    obtain ⟨mr, rfl⟩ := Option.isSome_iff_exists.mp hsome.1
    obtain ⟨mr', rfl⟩ := Option.isSome_iff_exists.mp hsome.2
    refine ⟨dom₂, _, rfl, .inl ⟨mr, mr', rfl⟩, fun cached plain h => ?_⟩
    have hheld := hboth cached plain h
    have hpair : (([mr.handle, mr'.handle] : List ℕ) : Multiset ℕ) + plain
        = ([mr'.handle] : List ℕ) + (([mr.handle] : List ℕ) + plain) := by
      rw [← add_assoc, Multiset.coe_add]
      exact congrArg (· + plain) (Multiset.coe_eq_coe.mpr (List.Perm.swap _ _ _))
    show dom₂.Custody False cached ((([mr.handle, mr'.handle] : List ℕ) : Multiset ℕ) + plain)
    rw [hpair]
    exact hheld
  · obtain ⟨dom₃, h₃, hput₃⟩ := Ep.mrPut_cases { ep with domain := dom₂ } ringMr
    rw [show ({ ep with domain := dom₂ } : Ep) = { ({ ep with domain := dom₁ } : Ep) with
      domain := dom₂ } from rfl] at h₃
    obtain ⟨dom₄, h₄, hput₄⟩ := Ep.mrPut_cases { ep with domain := dom₃ } creditMr
    refine ⟨dom₄, _, by rw [h₃, h₄], .inr rfl, fun cached plain h => ?_⟩
    show dom₄.Custody False cached (0 + plain)
    rw [zero_add]
    refine hput₄ cached plain (hput₃ cached _ ?_)
    rw [add_left_comm]
    exact hboth cached plain h

/-- A record that was created is the one found under its address. -/
theorem rdsPeerFind_cons {ep : Ep} {p : Peer} {dom : Domain} {t : ℕ} :
    rdsPeerFind { ep with tick := t, domain := dom, peers := p :: ep.peers }
      = Function.update (rdsPeerFind ep) p.addr (some p) := by
  funext b
  show (p :: ep.peers).find? (·.addr == b) = _
  by_cases hb : b = p.addr
  · rw [hb, Function.update_self, List.find?_cons_of_pos (by simp)]
  · rw [Function.update_of_ne hb, List.find?_cons_of_neg (by simpa using Ne.symm hb)]
    rfl

theorem Peer.Created.addr {p : Peer} {a : UInt64} {sa : SockAddr} (h : p.Created a sa) :
    p.addr = a := by
  obtain ⟨ring, credit, rfl⟩ | rfl := h
  · rfl
  · rfl

/-- **Finding or creating a peer is quiet**, and the peer is found from then on. -/
theorem rdsPeerGet_quiet (inp : RingInput) {env : Env} {ep e : Ep} {a : UInt64} {p? : Option Peer}
    (h : rdsPeerGet env ep a = (e, p?)) :
    ep.RingQuiet inp e ∧ ∀ p, p? = some p → rdsPeerFind e a = some p := by
  suffices hall : ∀ r, rdsPeerGet env ep a = r →
      ep.RingQuiet inp r.1 ∧ ∀ p, r.2 = some p → rdsPeerFind r.1 a = some p from hall _ h
  rintro r rfl
  refine rdsPeerGet_elim (fun p hp => ⟨.refl ep, fun q hq => ?_⟩) (fun _ _ => ⟨.refl ep, nofun⟩)
    (fun _ _ _ => ⟨.of_eq rfl, nofun⟩) (fun sa e p hnone _ hsa hreg => ?_)
  · cases hq
    exact hp
  obtain ⟨dom, p', hreg', hp, hregs⟩ := rdsPeerRegister_cases env { ep with tick := ep.tick + 4 } a
    sa (env.heap (ep.tick + 1)) (env.heap (ep.tick + 3))
  obtain ⟨rfl, rfl⟩ := Prod.mk.inj (hreg.symm.trans hreg')
  refine ⟨⟨.of_eq rfl, .single ?_, fun cached plain hc => ?_⟩, fun q hq => ?_⟩
  · have hcreate : RingBook.Quiet ep.cfg inp ep.ringBook (ep.ringBook.put p) :=
      .create hnone hsa hp
    unfold RingBook.put at hcreate
    unfold Ep.ringBook at hcreate ⊢
    rw [rdsPeerFind_cons]
    exact hcreate
  · show dom.Custody False cached (((p.mrHandles ++ _ : List ℕ) : Multiset ℕ) + plain)
    rw [← Multiset.coe_add, add_assoc]
    exact hregs cached _ hc
  · cases hq
    rw [← hp.addr]
    exact (congrFun rdsPeerFind_cons _).trans (Function.update_self _ _ _)

theorem rdsPeerGet_find {env : Env} {ep e : Ep} {a : UInt64} {p : Peer}
    (h : rdsPeerGet env ep a = (e, some p)) : p.addr = a ∧ rdsPeerFind e p.addr = some p := by
  have hp := (rdsPeerGet_quiet .any h).2 p rfl
  have haddr := rdsPeerFind_addr hp
  exact ⟨haddr, haddr.symm ▸ hp⟩

/-! ## Handshakes -/

/-- **A handshake is sent or refused.** -/
theorem rdsRingSendCtrl_cases (env : Env) (ep : Ep) (p : Peer) (op : UInt8)
    (hop : op = rdsOpRingReq ∨ op = rdsOpRingAck) :
    ep.RingSide (rdsRingSendCtrl env ep p op)
      ∧ (rdsRingSendCtrl env ep p op).peers = ep.peers
      ∧ (rdsRingSendCtrl env ep p op).domain = ep.domain
      ∧ ep.ringBook.Sends ep.cfg.geom p op (rdsRingSendCtrl env ep p op).ringBook.ctrl := by
  refine rdsRingSendCtrl_elim ⟨.refl ep, rfl, rfl, .inl rfl⟩ ⟨.of_eq rfl, rfl, rfl, .inl rfl⟩
    (fun ring credit hring hcredit => ⟨⟨rfl, [_], rfl, fun d hd => ?_⟩, rfl, rfl,
      .inr ⟨⟨ring.cookie, credit.cookie, ep.cfg.geom.slots, ep.cfg.geom.slotSize⟩, ?_, ?_⟩⟩)
  · rw [List.mem_singleton.mp hd, Dgram.hdr, Hdr.decode_encode]
    exact hop
  · rw [Peer.info?, hring, hcredit]
  · show List.filterMap _ (ep.wire ++ [_]) = _
    rw [List.filterMap_append, List.filterMap_cons, Dgram.ctrl?_ctrlHdr _ _ hop]
    rfl

/-- The book after handshakes were sent and a record was written back. -/
theorem Ep.ringBook_sending_setPeer {ep e : Ep} {p q : Peer} (hpeers : e.peers = ep.peers)
    (hwrites : e.writes = ep.writes) (hp : rdsPeerFind ep q.addr = some p) :
    (e.setPeer q).ringBook = (ep.ringBook.put q).sending e.ringBook.ctrl := by
  have hfind : rdsPeerFind e = rdsPeerFind ep := by
    unfold rdsPeerFind
    rw [hpeers]
  rw [Ep.ringBook_setPeer (by rw [hfind]; exact hp)]
  unfold Ep.ringBook RingBook.put RingBook.sending
  rw [hfind, hwrites]

theorem Ep.ringHeld_sending_setPeer {ep e : Ep} {p q : Peer} (hpeers : e.peers = ep.peers)
    (hp : rdsPeerFind ep q.addr = some p) (hq : q.mrHandles = p.mrHandles) :
    (e.setPeer q).ringHeld = ep.ringHeld := by
  have hfind : rdsPeerFind e q.addr = some p := by
    unfold rdsPeerFind
    rw [hpeers]
    exact hp
  rw [Ep.ringHeld_setPeer hfind hq, Ep.ringHeld, hpeers]
  rfl

theorem rdsRingHandleCtrl_quiet {inp : RingInput} (env : Env) (ep : Ep) (hdr : Hdr)
    (payload : List UInt8) (srcFi : UInt64)
    (hin : RingInfo.size ≤ payload.length → srcFi ≠ fiAddrNotavail →
      inp.hears srcFi hdr.op (RingInfo.decode payload)) :
    ep.RingQuiet inp (rdsRingHandleCtrl env ep hdr payload srcFi) := by
  have hheard {e : Ep} {p : Peer} (h : rdsPeerGet env ep srcFi = (e, some p))
      (hheeds : p.Heeds payload srcFi) : inp.hears p.addr hdr.op (RingInfo.decode payload) := by
    rw [(rdsPeerGet_find h).1]
    exact hin hheeds.size hheeds.known
  refine rdsRingHandleCtrl_elim (.refl ep) (fun e h => (rdsPeerGet_quiet inp h).1)
    (fun e p h => (rdsPeerGet_quiet inp h).1)
    (fun e p h hheeds hgeom => (rdsPeerGet_quiet inp h).1.trans ?_)
    (fun e p h hheeds hslots hsize => (rdsPeerGet_quiet inp h).1.trans ?_)
  · have hp := (rdsPeerGet_find h).2
    refine ⟨.of_eq rfl, ?_, .of_eq rfl (Ep.ringHeld_setPeer hp rfl)⟩
    rw [Ep.ringBook_setPeer (q := { p with state := .disabled }) hp]
    exact .single (.refuse hp (hheard h hheeds) hheeds.enabled hheeds.rxRingMr hheeds.creditMr
      hgeom)
  · have hp := (rdsPeerGet_find h).2
    have hadopt {ctrl} (hsends : e.ringBook.Sends e.cfg.geom p rdsOpRingAck ctrl) :=
      RingBook.Quiet.adopt hp (hheard h hheeds) hheeds.enabled hheeds.rxRingMr hheeds.creditMr
        hslots hsize hsends
    generalize RingInfo.decode payload = i at hadopt
    -- a request is answered, an answer is not
    split
    · obtain ⟨hside, hpeers, hdom, hsends⟩ := rdsRingSendCtrl_cases env e p rdsOpRingAck (.inr rfl)
      refine ⟨hside.trans (.of_eq rfl), ?_,
        .of_eq hdom (Ep.ringHeld_sending_setPeer (q := p.adopted i) hpeers hp rfl)⟩
      rw [Ep.ringBook_sending_setPeer (q := p.adopted i) hpeers hside.writes hp]
      exact .single (hadopt hsends)
    · refine ⟨.of_eq rfl, ?_, .of_eq rfl (Ep.ringHeld_setPeer (q := p.adopted i) hp rfl)⟩
      rw [Ep.ringBook_sending_setPeer (q := p.adopted i) rfl rfl hp]
      exact .single (hadopt (.inl rfl))

/-- The clock of a call runs on by more than the deadline of a handshake. -/
def Env.Stalls (env : Env) : Prop :=
  ∃ t t', t ≤ t' ∧ rdsRingConnectTimeoutMs < env.now t' - env.now t

/-- A call may find the handshake with a peer overdue: it is under way and the clock
may show that its deadline has passed, or the call starts it and stalls. -/
def Peer.Overdue (env : Env) (p : Peer) : Prop :=
  (p.state = .connecting ∧ ∃ t, rdsRingConnectTimeoutMs < env.now t - p.connectStartMs)
    ∨ (p.state = .none ∧ env.Stalls)

/-- The same for an address, which may have no record yet. -/
def Ep.Overdue (env : Env) (ep : Ep) (addr : UInt64) : Prop :=
  match rdsPeerFind ep addr with
  | some p => p.Overdue env
  | none => env.Stalls

/-- A record that was just created has no handshake under way. -/
theorem rdsPeerGet_overdue {env : Env} {ep e : Ep} {a : UInt64} {p : Peer}
    (h : rdsPeerGet env ep a = (e, some p)) (hlate : p.Overdue env) : ep.Overdue env a := by
  suffices hall : ∀ r, rdsPeerGet env ep a = r → r.2 = some p → ep.Overdue env a from
    hall _ h rfl
  unfold Ep.Overdue
  rintro r rfl
  refine rdsPeerGet_elim (fun q hq hp => ?_) (fun _ _ => nofun) (fun _ _ _ => nofun)
    (fun sa e q hnone _ _ hreg hp => ?_)
  · cases hp
    rw [hq]
    exact hlate
  · cases hp
    rw [hnone]
    obtain ⟨dom, q, hreg', hq, -⟩ := rdsPeerRegister_cases env { ep with tick := ep.tick + 4 } a
      sa (env.heap (ep.tick + 1)) (env.heap (ep.tick + 3))
    obtain ⟨-, rfl⟩ := Prod.mk.inj (hreg.symm.trans hreg')
    obtain ⟨hconn, -⟩ | ⟨-, hstalls⟩ := hlate
    · obtain ⟨ring, credit, rfl⟩ | rfl := hq
      · cases hconn
      · cases hconn
    · exact hstalls

theorem rdsRingConnect_quiet {inp : RingInput} (env : Env) {ep : Ep} {p : Peer}
    (hp : rdsPeerFind ep p.addr = some p) (hready : p.state ≠ .ready)
    (hdisabled : p.state ≠ .disabled) (hin : p.Overdue env → inp.expires p.addr) :
    ep.RingQuiet inp (rdsRingConnect env ep p).1 := by
  have hkick {e : Ep} {q : Peer} (hnone : p.state = .none)
      (he : e = rdsRingSendCtrl env ep p rdsOpRingReq)
      (hq : q = { p with state := .connecting, connectStartMs := env.now e.tick }) :
      RingBook.Quiet ep.cfg inp ep.ringBook ((ep.ringBook.put q).sending e.ringBook.ctrl) := by
    obtain ⟨-, -, -, hsends⟩ := rdsRingSendCtrl_cases env ep p rdsOpRingReq (.inl rfl)
    rw [hq, he]
    exact .kick hp hnone hsends
  -- the record after the handshake was sent
  have hset {e : Ep} (he : e = rdsRingSendCtrl env ep p rdsOpRingReq) {q : Peer}
      (haddr : q.addr = p.addr) (hmrs : q.mrHandles = p.mrHandles)
      (hbook : RingBook.Quiets ep.cfg inp ep.ringBook
        ((ep.ringBook.put q).sending e.ringBook.ctrl)) :
      ep.RingQuiet inp (Ep.setPeer { e with tick := e.tick + 2 } q) := by
    obtain ⟨hside, hpeers, hdom, -⟩ := rdsRingSendCtrl_cases env ep p rdsOpRingReq (.inl rfl)
    rw [← he] at hside hpeers hdom
    have hq : rdsPeerFind ep q.addr = some p := haddr ▸ hp
    refine ⟨hside.trans (.of_eq rfl), ?_,
      .of_eq hdom (Ep.ringHeld_sending_setPeer (e := { e with tick := e.tick + 2 }) hpeers hq hmrs)⟩
    rw [Ep.ringBook_sending_setPeer (e := { e with tick := e.tick + 2 }) hpeers hside.writes hq]
    exact hbook
  have hconn (hnone : p.state ≠ .none) : p.state = .connecting := by
    cases hs : p.state with
    | none => exact absurd hs hnone
    | connecting => rfl
    | ready => exact absurd hs hready
    | disabled => exact absurd hs hdisabled
  refine rdsRingConnect_elim (fun e q hnone he hq => ?_) (fun e q hnone he hq hlate => ?_)
    (fun hnone => ⟨.of_eq rfl, ?_, .of_eq rfl (Ep.ringHeld_setPeer hp rfl)⟩)
    (fun hnone hlate => ⟨.of_eq rfl, ?_, .of_eq rfl (Ep.ringHeld_setPeer hp rfl)⟩)
  · exact hset he (by rw [hq]) (by rw [hq]; rfl) (.single (hkick hnone he hq))
  · refine hset he (by rw [hq]) (by rw [hq]; rfl) ((Relation.ReflTransGen.single
      (hkick hnone he hq)).tail ?_)
    have hself : ((ep.ringBook.put q).sending e.ringBook.ctrl).table q.addr = some q :=
      Function.update_self _ _ _
    have hexpire : RingBook.Quiet ep.cfg inp _ _ := .expire hself (by rw [hq])
      (by rw [hq]; exact hin (.inr ⟨hnone, _, _, Nat.le_succ e.tick, hlate⟩))
    rwa [RingBook.sending_put,
      RingBook.put_put (p := q) (q := { q with state := .disabled }) rfl] at hexpire
  · show RingBook.Quiets _ inp _ (ep.setPeer p).ringBook
    rw [Ep.ringBook_setPeer (p := p) hp, Ep.put_ringBook hp]
  · show RingBook.Quiets _ inp _ (ep.setPeer { p with state := .disabled }).ringBook
    rw [Ep.ringBook_setPeer (p := p) (q := { p with state := .disabled }) hp]
    exact .single (.expire hp (hconn hnone) (hin (.inl ⟨hconn hnone, _, hlate⟩)))

/-! ## Slots -/

/-- **A slot was placed**: after a quiet step, one write of one slot was posted to a
`READY` peer with room, and its producer counter advanced. -/
def Ep.RingPlaced (inp : RingInput) (ep ep' : Ep) (dest : UInt64) (op : UInt8)
    (payload : List UInt8) : Prop :=
  ∃ e p flags tag data, ep.RingQuiet inp e ∧ rdsPeerFind e p.addr = some p ∧ p.addr = dest
    ∧ p.state = .ready ∧ p.full = false ∧ ep'.ringHeld = e.ringHeld
    ∧ ep' = { e with
        peers := ep'.peers, tick := ep'.tick, txCq := ep'.txCq
        writes := e.writes ++ [p.slotWrite (p.fillSlot op flags tag data payload)] }
    ∧ ep'.ringBook = (e.ringBook.put (p.advance (p.fillSlot op flags tag data payload))).posting
        (p.slotWrite (p.fillSlot op flags tag data payload))

theorem Ep.RingPlaced.of_quiet {inp : RingInput} {ep₀ ep ep' : Ep} {dest : UInt64}
    {op : UInt8} {payload : List UInt8} (h₀ : ep₀.RingQuiet inp ep)
    (h : ep.RingPlaced inp ep' dest op payload) : ep₀.RingPlaced inp ep' dest op payload := by
  obtain ⟨e, p, flags, tag, data, hquiet, rest⟩ := h
  exact ⟨e, p, flags, tag, data, h₀.trans hquiet, rest⟩

theorem rdsRingPlace_ring {inp : RingInput} (env : Env) {ep : Ep} {p : Peer}
    (hp : rdsPeerFind ep p.addr = some p) (hready : p.state = .ready) (payload : List UInt8)
    (tag data : UInt64) (context : ℕ) (flags : UInt64) (tagged genComp : Bool) (op : UInt8)
    {r : Ep × Ret}
    (hr : rdsRingPlace env ep p payload tag data context flags tagged genComp op = r) :
    (r.2 ≠ .ok ∧ ep.RingQuiet inp r.1)
      ∨ (r.2 = .ok ∧ ep.RingPlaced inp r.1 p.addr op payload) := by
  subst hr
  have hsteady := Peer.Steady.refreshCredit p
  obtain ⟨q, hq⟩ : ∃ q, q = p.refreshCredit := ⟨_, rfl⟩
  rw [← hq] at hsteady
  have hmrs : q.mrHandles = p.mrHandles := by
    unfold Peer.mrHandles
    rw [hsteady.rxRingMr, hsteady.creditMr]
  have hfind : rdsPeerFind ep q.addr = some p := by
    rw [hsteady.addr]
    exact hp
  have hstate : q.state = .ready := by
    rw [hq, Peer.refreshCredit]
    split
    · exact hready
    · exact hready
  have hself : rdsPeerFind (ep.setPeer q) q.addr = some q := by
    rw [rdsPeerFind_setPeer hfind]
    exact Function.update_self _ _ _
  have hfresh : ep.RingQuiet inp (ep.setPeer q) := by
    refine ⟨.of_eq rfl, ?_, .of_eq rfl (Ep.ringHeld_setPeer hfind hmrs)⟩
    rw [Ep.ringBook_setPeer hfind, hq]
    exact .single (.refresh hp hready)
  refine rdsRingPlace_elim (fun q' hq' _ => .inl ⟨nofun, ?_⟩)
    (fun q' slot _ _ hq' hfull _ _ _ => .inl ⟨nofun, ?_⟩) (fun q' slot hq' hfull hslot => ?_)
  · rw [hq', ← hq]
    exact hfresh
  · -- a refused write leaves the staged slot behind
    obtain rfl : q' = q := hq'.trans hq.symm
    refine ⟨.of_eq rfl, hfresh.book.tail ?_,
      .of_eq rfl (Ep.ringHeld_setPeer (q := q'.stage slot) hfind hmrs)⟩
    have hrule : RingBook.Quiet ep.cfg inp (ep.setPeer q').ringBook
        ((ep.setPeer q').ringBook.put (q'.stage slot)) := .stage hself hstate hfull
    rw [Ep.ringBook_setPeer hfind,
      RingBook.put_put (p := q') (q := q'.stage slot) rfl] at hrule
    show RingBook.Quiet _ inp _ (ep.setPeer (q'.stage slot)).ringBook
    rw [Ep.ringBook_setPeer (p := p) (q := q'.stage slot) hfind, Ep.ringBook_setPeer hfind]
    exact hrule
  · obtain rfl : q' = q := hq'.trans hq.symm
    refine .inr ⟨rfl, ep.setPeer q', q', rdsHdrFlags tagged flags, tag, data, hfresh, hself,
      hsteady.addr, hstate, hfull, ?_⟩
    rw [← hslot]
    refine ⟨?_, rfl, ?_⟩
    · have hheld : (ep.setPeer (q'.advance slot)).ringHeld = (ep.setPeer q').ringHeld := by
        rw [Ep.ringHeld_setPeer (q := q'.advance slot) hfind hmrs, Ep.ringHeld_setPeer hfind hmrs]
      rw [← hheld]
      rfl
    · have hbook : (ep.setPeer (q'.advance slot)).ringBook
          = (ep.setPeer q').ringBook.put (q'.advance slot) := by
        rw [Ep.ringBook_setPeer (p := p) (q := q'.advance slot) hfind, Ep.ringBook_setPeer hfind,
          RingBook.put_put (p := q') (q := q'.advance slot) rfl]
      rw [← hbook]
      rfl

/-- **`rds_ring_send` is quiet or places its slot.** -/
theorem rdsRingSend_ring {inp : RingInput} (env : Env) (ep : Ep) (payload : List UInt8)
    (dest tag data : UInt64) (context : ℕ) (flags : UInt64) (tagged genComp : Bool) (op : UInt8)
    (hin : ep.Overdue env dest → inp.expires dest) {r : Ep × Ret}
    (hr : rdsRingSend env ep payload dest tag data context flags tagged genComp op = r) :
    (r.2 ≠ .ok ∧ ep.RingQuiet inp r.1)
      ∨ (r.2 = .ok ∧ payload.length ≤ ep.cfg.geom.payload
        ∧ ep.RingPlaced inp r.1 dest op payload) := by
  subst hr
  have htouch {e : Ep} {p : Peer} (h : rdsPeerGet env ep dest = (e, some p)) :
      ep.RingQuiet inp (e.touchPeer p) := by
    refine (rdsPeerGet_quiet inp h).1.trans
      ⟨.of_eq rfl, ?_, .of_eq rfl (Ep.ringHeld_touchPeer (rdsPeerGet_find h).2)⟩
    rw [Ep.ringBook_touchPeer (rdsPeerGet_find h).2]
  have hfind {e : Ep} {p : Peer} (h : rdsPeerGet env ep dest = (e, some p)) :
      rdsPeerFind (e.touchPeer p) p.addr = some p := by
    rw [rdsPeerFind_touchPeer (rdsPeerGet_find h).2]
    exact (rdsPeerGet_find h).2
  refine rdsRingSend_elim (fun _ => .inl ⟨nofun, .refl ep⟩)
    (fun e h => .inl ⟨nofun, (rdsPeerGet_quiet inp h).1⟩) (fun e p _ hlen h hready => ?_)
    (fun e p h _ => .inl ⟨nofun, htouch h⟩)
    (fun e p h hready hdisabled => .inl ⟨?_, (htouch h).trans
      (rdsRingConnect_quiet env (hfind h) hready hdisabled (fun hlate => ?_))⟩)
  · obtain ⟨hret, hquiet⟩ | ⟨hret, hplaced⟩ := rdsRingPlace_ring env (hfind h) hready payload tag
      data context flags tagged genComp op rfl
    · exact .inl ⟨hret, (htouch h).trans hquiet⟩
    · rw [(rdsPeerGet_find h).1] at hplaced
      exact .inr ⟨hret, hlen, hplaced.of_quiet (htouch h)⟩
  · obtain hret | hret := rdsRingConnect_ret env (e.touchPeer p) p
    · rw [hret]
      exact nofun
    · rw [hret]
      exact nofun
  · rw [(rdsPeerGet_find h).1]
    exact hin (rdsPeerGet_overdue h hlate)

/-! ## Polling -/

/-- **Credit is returned or its write is refused.** -/
theorem rdsRingReturnCredit_cases (env : Env) (ep : Ep) (p : Peer) :
    ((∃ e, env.sendmsg ep.tick
          (.rdma ({ p with creditTx := p.rxHead } : Peer).creditWrite) = some e)
        ∧ rdsRingReturnCredit env ep p
          = Ep.setPeer { ep with tick := ep.tick + 1 } { p with creditTx := p.rxHead })
      ∨ (env.sendmsg ep.tick (.rdma ({ p with creditTx := p.rxHead } : Peer).creditWrite) = none
        ∧ rdsRingReturnCredit env ep p = Ep.setPeer { ep with
            tick := ep.tick + 1
            writes := ep.writes ++ [({ p with creditTx := p.rxHead } : Peer).creditWrite] }
          { p with creditTx := p.rxHead, rxCreditSent := p.rxHead }) := by
  unfold rdsRingReturnCredit
  dsimp only
  obtain ⟨hcnt, -⟩ | ⟨e, e', hsend, -, h⟩ | ⟨-, hn, -⟩ | ⟨hsend, -, h⟩ :=
    rdsPostRdma_cases env ep ({ p with creditTx := p.rxHead } : Peer).creditWrite
  · exact absurd hcnt (show ¬ (1 = 0 ∨ rdsIovLimit < 1) by decide)
  · rw [h]
    exact .inl ⟨⟨e, hsend⟩, rfl⟩
  · cases hn
  · rw [h]
    exact .inr ⟨hsend, rfl⟩

theorem rdsRingReturnCredit_calm {cfg : EpCfg} {inp : RingInput} (env : Env) {ep : Ep} {p : Peer}
    (hp : rdsPeerFind ep p.addr = some p) :
    RingBook.Calm cfg inp ep.ringBook (rdsRingReturnCredit env ep p).ringBook := by
  obtain ⟨-, h⟩ | ⟨-, h⟩ := rdsRingReturnCredit_cases env ep p
  · rw [h]
    show RingBook.Calm cfg inp _ (ep.setPeer { p with creditTx := p.rxHead }).ringBook
    rw [Ep.ringBook_setPeer (q := { p with creditTx := p.rxHead }) hp]
    exact ⟨.withhold hp, RingBook.rxHead_put hp rfl rfl⟩
  · rw [h]
    show RingBook.Calm cfg inp _ ((ep.setPeer { p with
      creditTx := p.rxHead, rxCreditSent := p.rxHead }).ringBook.posting _)
    rw [Ep.ringBook_setPeer (q := { p with creditTx := p.rxHead, rxCreditSent := p.rxHead }) hp]
    exact ⟨.credit hp, RingBook.rxHead_put hp rfl rfl⟩

theorem rdsRingFlushCredit_calms {cfg : EpCfg} {inp : RingInput} (env : Env) (ep : Ep)
    (addr : UInt64) :
    RingBook.Calms cfg inp ep.ringBook (rdsRingFlushCredit env ep addr).ringBook := by
  exact rdsRingFlushCredit_elim .refl
    (fun p hp => .single (rdsRingReturnCredit_calm env (by rw [rdsPeerFind_addr hp]; exact hp)))

/-- **Taking in a message is quiet.** -/
theorem rdsHandleInbound_quiets {inp : RingInput} (env : Env) (ep : Ep) (hdr : Hdr)
    (payload : List UInt8) (src : SockAddr) (srcFi : UInt64)
    (hin : ∀ op i, hdr.ctrl? payload = some (op, i) → srcFi ≠ fiAddrNotavail →
      inp.hears srcFi op i) :
    (rdsHandleInbound env ep hdr payload src srcFi).cfg = ep.cfg
      ∧ RingBook.Quiets ep.cfg inp ep.ringBook
        (rdsHandleInbound env ep hdr payload src srcFi).ringBook := by
  have hoff {e : Ep} (h : ep.OffRing e) :
      e.cfg = ep.cfg ∧ RingBook.Quiets ep.cfg inp ep.ringBook e.ringBook :=
    ⟨h.cfg, h.ringBook ▸ .refl⟩
  refine rdsHandleInbound_elim (hoff (.refl ep)) (fun p _ _ => hoff (.pendingComplete ep p))
    (fun hmagic hop => ?_) (fun _ _ => hoff (Ep.Inward.handleMessage env ep _).toOffRing)
  have hquiet : ep.RingQuiet inp (rdsRingHandleCtrl env ep hdr payload srcFi) :=
    rdsRingHandleCtrl_quiet env ep hdr payload srcFi
      (fun hlen => hin _ _ (if_pos ⟨hmagic, hop, hlen⟩))
  exact ⟨hquiet.cfg, hquiet.book⟩

theorem rdsRingDeliver_quiets {inp : RingInput} (env : Env) (ep : Ep) (sa : SockAddr)
    (addr : UInt64) (slot : RingSlot)
    (hin : ∀ op i, slot.ctrl? = some (op, i) → addr ≠ fiAddrNotavail → inp.hears addr op i) :
    (rdsRingDeliver env ep sa addr slot).cfg = ep.cfg
      ∧ RingBook.Quiets ep.cfg inp ep.ringBook (rdsRingDeliver env ep sa addr slot).ringBook := by
  unfold rdsRingDeliver
  unfold RingSlot.ctrl? at hin
  dsimp only
  split
  · refine rdsHandleInbound_quiets env ep _ _ sa addr (fun op i h => ?_)
    rw [Hdr.ctrl?_eq_none (show rdsOpEager ≠ rdsOpRingReq ∧ rdsOpEager ≠ rdsOpRingAck by decide)]
      at h
    cases h
  rename_i heager
  split
  · exact ⟨rfl, .refl⟩
  rename_i hlen
  rw [if_neg (not_or.mpr ⟨heager, hlen⟩)] at hin
  exact rdsHandleInbound_quiets env ep _ _ sa addr hin

/-- A slot that is polled is in the ring. -/
theorem Peer.nextSlot_eq_some {p : Peer} {slots : UInt32} {slot : RingSlot}
    (h : p.nextSlot slots = some slot) : slot = p.rxRing (p.rxHead % slots.toUInt64).toNat := by
  unfold nextSlot at h
  dsimp only at h
  split at h
  · exact (Option.some.inj h).symm
  · cases h

theorem Peer.Steady.nextSlot {p q : Peer} (h : p.Steady q) (slots : UInt32) :
    q.nextSlot slots = p.nextSlot slots := by
  unfold Peer.nextSlot
  rw [h.rxRing, h.rxHead]

theorem Peer.Steady.absorbAck (p : Peer) (ack : UInt64) : p.Steady (p.absorbAck ack) := by
  unfold Peer.absorbAck
  split
  · exact ⟨rfl, rfl, rfl, rfl, rfl, rfl, rfl, rfl, rfl, rfl⟩
  · exact .refl p

/-- **A round of polling that finds a slot** absorbs its credit, delivers it, advances the
consumer and perhaps returns credit. -/
theorem rdsRingPollSlot_ring {inp : RingInput} (env : Env) {ep : Ep} {addr : UInt64} {p : Peer}
    {slot : RingSlot} (hp : rdsPeerFind ep addr = some p)
    (hnext : p.nextSlot ep.cfg.geom.slots = some slot)
    (hin : ∀ op i, slot.ctrl? = some (op, i) → addr ≠ fiAddrNotavail → inp.hears addr op i) :
    ∃ e q, (rdsRingDeliver env (ep.setPeer (p.absorbAck slot.ack)) p.sa p.addr slot) = e
      ∧ e.cfg = ep.cfg
      ∧ RingBook.Quiets ep.cfg inp (ep.ringBook.put (p.absorbAck slot.ack)) e.ringBook
      ∧ rdsPeerFind e addr = some q ∧ p.Steady q
      ∧ rdsRingPollSlot env ep addr
        = some (if ({ q with rxHead := q.rxHead + 1 } : Peer).creditDue ep.cfg.geom.slots then
            rdsRingReturnCredit env (e.setPeer { q with rxHead := q.rxHead + 1 })
              { q with rxHead := q.rxHead + 1 }
          else e.setPeer { q with rxHead := q.rxHead + 1 }) := by
  have haddr : p.addr = addr := rdsPeerFind_addr hp
  have hsteady := Peer.Steady.absorbAck p slot.ack
  have hp' : rdsPeerFind ep (p.absorbAck slot.ack).addr = some p := by
    rw [hsteady.addr, haddr]
    exact hp
  have hbook := Ep.ringBook_setPeer hp'
  have hself : (ep.setPeer (p.absorbAck slot.ack)).ringBook.table addr
      = some (p.absorbAck slot.ack) := by
    rw [hbook, ← haddr, ← hsteady.addr]
    exact Function.update_self _ _ _
  obtain ⟨hcfg, hquiets⟩ := rdsRingDeliver_quiets env (ep.setPeer (p.absorbAck slot.ack)) p.sa
    p.addr slot (by rw [haddr]; exact hin)
  obtain ⟨q, hq, hsteady'⟩ := RingBook.Quiets.steady hquiets hself
  refine ⟨_, q, rfl, hcfg, hbook ▸ hquiets, hq, hsteady.trans hsteady', ?_⟩
  have hq : rdsPeerFind (rdsRingDeliver env (ep.setPeer (p.absorbAck slot.ack)) p.sa p.addr slot)
    addr = some q := hq
  unfold rdsRingPollSlot
  dsimp only
  rw [hp]
  dsimp only
  rw [hnext]
  dsimp only
  rw [hq]
