import RdsProv.RingMachine
import RdsProv.World
import RdsProv.FreedCookies

/-!
# The handshake

Two endpoints tell each other where their rings are with `RING_REQ` and `RING_ACK`
datagrams, which may be refused, lost, delayed or delivered again. Each side decides
for itself: it adopts what it hears, if the geometry is its own, or disables the peer;
and it disables the peer for good when its own deadline passes.

What makes the two sides agree is that a record never changes what it advertises. A
handshake that is under way, or was adopted, is therefore still what its sender's
record says (`RingBook.Fit`), however old it is. `handshake_agreement` reads the
agreement off that invariant.
-/

/-! ## Records -/

/-- The advertisement a record has adopted. -/
def Peer.known (p : Peer) : RingInfo :=
  ⟨p.remRingCookie, p.remCreditCookie, p.remSlots, p.remSlotSize⟩

/-- **A record is fit**, if `heard` are the advertisements that can be heard from each
address. -/
structure Peer.Fit (cfg : EpCfg) (heard : UInt64 → RingInfo → Prop) (p : Peer) : Prop where
  sa : rdsAvAddr cfg p.addr = some p.sa
  mrs : p.state ≠ .disabled → p.rxRingMr ≠ none ∧ p.creditMr ≠ none
  head : p.state = .none ∨ p.state = .connecting → p.txHead = 0
  ready : p.state = .ready → heard p.addr p.known
    ∧ p.remSlots = cfg.geom.slots ∧ p.remSlotSize = cfg.geom.slotSize
  ring : ∀ idx, (p.rxRing idx).ctrl? = none

/-- What a record never changes, and never leaves. -/
structure Peer.Lasts (p q : Peer) : Prop where
  addr : q.addr = p.addr
  sa : q.sa = p.sa
  rxRingMr : q.rxRingMr = p.rxRingMr
  creditMr : q.creditMr = p.creditMr
  disabled : p.state = .disabled → q.state = .disabled

namespace Peer

theorem Lasts.refl (p : Peer) : p.Lasts p := ⟨rfl, rfl, rfl, rfl, id⟩

theorem Lasts.trans {p q r : Peer} (h : p.Lasts q) (h' : q.Lasts r) : p.Lasts r where
  addr := h'.addr.trans h.addr
  sa := h'.sa.trans h.sa
  rxRingMr := h'.rxRingMr.trans h.rxRingMr
  creditMr := h'.creditMr.trans h.creditMr
  disabled hp := h'.disabled (h.disabled hp)

theorem Lasts.info? {p q : Peer} (h : p.Lasts q) (g : RingGeom) : q.info? g = p.info? g := by
  unfold Peer.info?
  rw [h.rxRingMr, h.creditMr]

/-- The ring and the credit cell behind an advertisement. -/
theorem info?_eq_some {p : Peer} {g : RingGeom} {i : RingInfo} (h : p.info? g = some i) :
    ∃ ring credit, p.rxRingMr = some ring ∧ p.creditMr = some credit
      ∧ i = ⟨ring.cookie, credit.cookie, g.slots, g.slotSize⟩ := by
  unfold Peer.info? at h
  split at h
  · rename_i ring credit hring hcredit
    cases h
    exact ⟨ring, credit, hring, hcredit, rfl⟩
  · cases h

variable {cfg : EpCfg} {heard heard' : UInt64 → RingInfo → Prop}

theorem Fit.mono {p : Peer} (h : p.Fit cfg heard) (hle : ∀ a i, heard a i → heard' a i) :
    p.Fit cfg heard' :=
  ⟨h.sa, h.mrs, h.head, fun hready => (h.ready hready).imp_left (hle _ _), h.ring⟩

/-- **A step that leaves the handshake alone**, and does not place a slot before it is
finished. -/
theorem Fit.congr {p q : Peer} (h : p.Fit cfg heard) (haddr : q.addr = p.addr) (hsa : q.sa = p.sa)
    (hstate : q.state = p.state) (hring : q.rxRingMr = p.rxRingMr)
    (hcredit : q.creditMr = p.creditMr) (hknown : q.known = p.known)
    (hhead : q.txHead = p.txHead ∨ p.state = .ready)
    (hslots : ∀ idx, (q.rxRing idx).ctrl? = none) : q.Fit cfg heard where
  sa := by
    rw [haddr, hsa]
    exact h.sa
  mrs := by
    rw [hstate, hring, hcredit]
    exact h.mrs
  head hq := by
    rw [hstate] at hq
    obtain hhead | hready := hhead
    · rw [hhead]
      exact h.head hq
    · rw [hready] at hq
      exact absurd hq (by decide)
  ready hq := by
    rw [hstate] at hq
    rw [haddr, hknown, show q.remSlots = p.remSlots from congrArg RingInfo.slots hknown,
      show q.remSlotSize = p.remSlotSize from congrArg RingInfo.slotSize hknown]
    exact h.ready hq
  ring := hslots

/-- A record that is disabled stays fit. -/
theorem Fit.disable {p : Peer} (h : p.Fit cfg heard) :
    ({ p with state := .disabled } : Peer).Fit cfg heard where
  sa := h.sa
  mrs hq := absurd rfl hq
  head hq := by
    obtain hq | hq := hq
    · cases hq
    · cases hq
  ready hq := by cases hq
  ring := h.ring

end Peer

/-! ## Books -/

/-- **A book is fit**: its records are, every handshake sent is what a record advertises,
and no slot written is one. -/
structure RingBook.Fit (cfg : EpCfg) (heard : UInt64 → RingInfo → Prop) (b : RingBook) : Prop where
  key : ∀ a p, b.table a = some p → p.addr = a
  peers : ∀ a p, b.table a = some p → p.Fit cfg heard
  ctrl : ∀ x ∈ b.ctrl, ∃ a q, b.table a = some q ∧ q.sa = x.1 ∧ q.info? cfg.geom = some x.2.2
  writes : ∀ w ∈ b.writes, ∀ idx slot, w.loc = .stage idx slot → slot.ctrl? = none

namespace RingBook

variable {cfg : EpCfg} {inp : RingInput} {b b' : RingBook} {heard heard' : UInt64 → RingInfo → Prop}

/-- Putting back a record that lasts, all others do. -/
theorem lasts_put {p q : Peer} (hp : b.table p.addr = some p) (hq : p.Lasts q) {a : UInt64}
    {r : Peer} (hr : b.table a = some r) : ∃ r', (b.put q).table a = some r' ∧ r.Lasts r' := by
  by_cases ha : a = q.addr
  · rw [ha, hq.addr, hp] at hr
    cases hr
    exact ⟨q, by rw [ha]; exact b.table_put_self q, hq⟩
  · exact ⟨r, (b.table_put_of_ne ha).trans hr, .refl r⟩

/-- **Records last.** -/
theorem Rule.lasts (h : Rule cfg inp b b') {a : UInt64} {p : Peer} (hp : b.table a = some p) :
    ∃ p', b'.table a = some p' ∧ p.Lasts p' := by
  cases h with
  | quiet h =>
    cases h with
    | @create a' sa q hnone hsa hq =>
      have haddr : q.addr = a' := by
        obtain ⟨ring, credit, rfl⟩ | rfl := hq
        · rfl
        · rfl
      refine ⟨p, (b.table_put_of_ne ?_).trans hp, .refl p⟩
      rintro rfl
      rw [haddr, hnone] at hp
      cases hp
    | kick hq hstate =>
      refine lasts_put hq ?_ hp
      exact ⟨rfl, rfl, rfl, rfl, fun hd => by rw [hstate] at hd; cases hd⟩
    | expire hq =>
      refine lasts_put hq ?_ hp
      exact ⟨rfl, rfl, rfl, rfl, fun _ => rfl⟩
    | refuse hq =>
      refine lasts_put hq ?_ hp
      exact ⟨rfl, rfl, rfl, rfl, fun _ => rfl⟩
    | adopt hq _ hstate =>
      refine lasts_put hq ?_ hp
      exact ⟨rfl, rfl, rfl, rfl, fun hd => absurd hd hstate⟩
    | @refresh q hq hstate =>
      have hs := Peer.Steady.refreshCredit q
      refine lasts_put hq ?_ hp
      exact ⟨hs.addr, hs.sa, hs.rxRingMr, hs.creditMr, fun hd => by rw [hstate] at hd; cases hd⟩
    | stage hq =>
      refine lasts_put hq ?_ hp
      exact ⟨rfl, rfl, rfl, rfl, id⟩
  | @absorb q slot hq =>
    refine lasts_put hq ?_ hp
    unfold Peer.absorbAck
    split
    · exact ⟨rfl, rfl, rfl, rfl, id⟩
    · exact .refl _
  | place hq | consume hq | withhold hq | credit hq | land hq | landCredit hq =>
    refine lasts_put hq ?_ hp
    exact ⟨rfl, rfl, rfl, rfl, id⟩

theorem Rules.lasts (h : Rules cfg inp b b') {a : UInt64} {p : Peer} (hp : b.table a = some p) :
    ∃ p', b'.table a = some p' ∧ p.Lasts p' := by
  induction h with
  | refl => exact ⟨p, hp, .refl p⟩
  | tail _ hstep ih =>
    obtain ⟨q, hq, hlasts⟩ := ih
    obtain ⟨r, hr, hlasts'⟩ := hstep.lasts hq
    exact ⟨r, hr, hlasts.trans hlasts'⟩

/-- Putting a fit record, with what is advertised still advertised. -/
theorem Fit.put (hb : b.Fit cfg heard) {q : Peer} (hq : q.Fit cfg heard)
    (hlasts : ∀ a p, b.table a = some p → ∃ p', (b.put q).table a = some p' ∧ p.Lasts p') :
    (b.put q).Fit cfg heard where
  key a p hp := by
    by_cases ha : a = q.addr
    · rw [ha, table_put_self] at hp
      cases hp
      exact ha.symm
    · rw [table_put_of_ne b ha] at hp
      exact hb.key a p hp
  peers a p hp := by
    by_cases ha : a = q.addr
    · rw [ha, table_put_self] at hp
      cases hp
      exact hq
    · rw [table_put_of_ne b ha] at hp
      exact hb.peers a p hp
  ctrl x hx := by
    obtain ⟨a, r, hr, hsa, hinfo⟩ := hb.ctrl x hx
    obtain ⟨r', hr', hlast⟩ := hlasts a r hr
    exact ⟨a, r', hr', hlast.sa.trans hsa, (hlast.info? cfg.geom).trans hinfo⟩
  writes := hb.writes

/-- A record is put back that lasts. -/
theorem Fit.put_lasts (hb : b.Fit cfg heard) {p q : Peer} (hp : b.table p.addr = some p)
    (hlasts : p.Lasts q) (hq : q.Fit cfg heard) : (b.put q).Fit cfg heard :=
  hb.put hq (fun _ _ hr => lasts_put hp hlasts hr)

/-- A handshake that goes out is what a record advertises. -/
theorem Fit.sending {p q : Peer} {op : UInt8} {ctrl : List (SockAddr × UInt8 × RingInfo)}
    (hput : (b.put q).Fit cfg heard) (hsends : b.Sends cfg.geom p op ctrl) (hlasts : p.Lasts q) :
    ((b.put q).sending ctrl).Fit cfg heard := by
  refine ⟨hput.key, hput.peers, fun x hx => ?_, hput.writes⟩
  obtain rfl | ⟨i, hinfo, rfl⟩ := hsends
  · exact hput.ctrl x hx
  · obtain hx | hx := List.mem_append.mp hx
    · exact hput.ctrl x hx
    · rw [List.mem_singleton.mp hx]
      exact ⟨q.addr, q, b.table_put_self q, hlasts.sa, (hlasts.info? cfg.geom).trans hinfo⟩

/-- A write that is posted holds no handshake. -/
theorem Fit.posting (hb : b.Fit cfg heard) {w : RdmaOp}
    (hw : ∀ idx slot, w.loc = .stage idx slot → slot.ctrl? = none) :
    (b.posting w).Fit cfg heard := by
  refine ⟨hb.key, hb.peers, hb.ctrl, fun v hv => ?_⟩
  obtain hv | hv := List.mem_append.mp hv
  · exact hb.writes v hv
  · rw [List.mem_singleton.mp hv]
    exact hw

/-- **The quiet rules keep a book fit**, if what is heard can be heard. -/
theorem Quiet.fit (h : Quiet cfg inp b b') (hb : b.Fit cfg heard)
    (hhears : ∀ a op i, inp.hears a op i → heard a i) : b'.Fit cfg heard := by
  cases h with
  | @create a sa q hnone hsa hq =>
    have haddr : q.addr = a := by
      obtain ⟨ring, credit, rfl⟩ | rfl := hq
      · rfl
      · rfl
    refine hb.put ?_ (fun a' p hp => ⟨p, (b.table_put_of_ne ?_).trans hp, .refl p⟩)
    · obtain ⟨ring, credit, rfl⟩ | rfl := hq
      · refine ⟨hsa, fun _ => ⟨?_, ?_⟩, fun _ => rfl, fun hr => (by cases hr), fun _ => rfl⟩
        · exact Option.some_ne_none ring
        · exact Option.some_ne_none credit
      · refine ⟨hsa, fun hd => absurd rfl hd, fun hs => ?_, fun hr => (by cases hr), fun _ => rfl⟩
        rfl
    · rintro rfl
      rw [haddr, hnone] at hp
      cases hp
  | @kick p t ctrl hp hstate hctrl =>
    have hfit := hb.peers _ p hp
    have hlasts : p.Lasts { p with state := .connecting, connectStartMs := t } :=
      ⟨rfl, rfl, rfl, rfl, fun hd => by rw [hstate] at hd; cases hd⟩
    refine (hb.put_lasts hp hlasts ⟨hfit.sa, fun _ => ?_, fun _ => ?_, fun hr => (by cases hr),
      hfit.ring⟩).sending hctrl hlasts
    · exact hfit.mrs (by rw [hstate]; decide)
    · exact hfit.head (.inl hstate)
  | @expire p hp =>
    exact hb.put_lasts hp ⟨rfl, rfl, rfl, rfl, fun _ => rfl⟩ (hb.peers _ p hp).disable
  | @refuse p op i hp =>
    exact hb.put_lasts hp ⟨rfl, rfl, rfl, rfl, fun _ => rfl⟩ (hb.peers _ p hp).disable
  | @adopt p op i ctrl hp hin hstate hring hcredit hslots hsize hctrl =>
    have hfit := hb.peers _ p hp
    have hlasts : p.Lasts (p.adopted i) := ⟨rfl, rfl, rfl, rfl, fun hd => absurd hd hstate⟩
    refine (hb.put_lasts hp hlasts ⟨hfit.sa, fun _ => ⟨hring, hcredit⟩, fun hs => ?_,
      fun _ => ⟨hhears _ op i hin, hslots, hsize⟩,
      hfit.ring⟩).sending hctrl hlasts
    obtain hs | hs := hs
    · cases hs
    · cases hs
  | @refresh p hp hstate =>
    have hs := Peer.Steady.refreshCredit p
    have hst : p.refreshCredit.state = p.state := by
      unfold Peer.refreshCredit
      split <;> rfl
    have hknown : p.refreshCredit.known = p.known := by
      unfold Peer.refreshCredit
      split <;> rfl
    refine hb.put_lasts hp
      ⟨hs.addr, hs.sa, hs.rxRingMr, hs.creditMr, fun hd => by rw [hst]; exact hd⟩
      ((hb.peers _ p hp).congr hs.addr hs.sa hst hs.rxRingMr hs.creditMr hknown (.inl hs.txHead) ?_)
    rw [hs.rxRing]
    exact (hb.peers _ p hp).ring
  | @stage p slot hp =>
    exact hb.put_lasts hp ⟨rfl, rfl, rfl, rfl, id⟩ ((hb.peers _ p hp).congr rfl rfl rfl rfl rfl rfl
      (.inl rfl) (hb.peers _ p hp).ring)

/-- **The rules keep a book fit**, if what is heard can be heard and what lands is no
handshake. -/
theorem Rule.fit (h : Rule cfg inp b b') (hb : b.Fit cfg heard)
    (hhears : ∀ a op i, inp.hears a op i → heard a i)
    (hlands : ∀ a idx slot, inp.lands a idx slot → slot.ctrl? = none) : b'.Fit cfg heard := by
  -- a record whose handshake is left alone
  have hkeep {p q : Peer} (hp : b.table p.addr = some p) (haddr : q.addr = p.addr)
      (hsa : q.sa = p.sa) (hstate : q.state = p.state) (hring : q.rxRingMr = p.rxRingMr)
      (hcredit : q.creditMr = p.creditMr) (hknown : q.known = p.known)
      (hhead : q.txHead = p.txHead ∨ p.state = .ready)
      (hslots : ∀ idx, (q.rxRing idx).ctrl? = none) : (b.put q).Fit cfg heard :=
    hb.put_lasts hp ⟨haddr, hsa, hring, hcredit, fun hd => hstate.trans hd⟩
      ((hb.peers _ p hp).congr haddr hsa hstate hring hcredit hknown hhead hslots)
  cases h with
  | quiet h => exact h.fit hb hhears
  | @place p op flags tag data payload hp hstate hfull hlen hctrl =>
    refine (hkeep (q := p.advance _) hp rfl rfl rfl rfl rfl rfl (.inr hstate)
      (hb.peers _ p hp).ring).posting (fun idx slot hloc => ?_)
    cases hloc
    exact hctrl
  | @absorb p slot hp hnext =>
    have hs := Peer.Steady.absorbAck p slot.ack
    refine hkeep hp hs.addr hs.sa ?_ hs.rxRingMr hs.creditMr ?_ (.inl hs.txHead) ?_
    · unfold Peer.absorbAck
      split <;> rfl
    · unfold Peer.absorbAck
      split <;> rfl
    · rw [hs.rxRing]
      exact (hb.peers _ p hp).ring
  | @consume p slot hp => exact hkeep hp rfl rfl rfl rfl rfl rfl (.inl rfl) (hb.peers _ p hp).ring
  | @withhold p hp => exact hkeep hp rfl rfl rfl rfl rfl rfl (.inl rfl) (hb.peers _ p hp).ring
  | @credit p hp =>
    refine Fit.posting ?_ (fun idx slot hloc => by cases hloc)
    exact hkeep hp rfl rfl rfl rfl rfl rfl (.inl rfl) (hb.peers _ p hp).ring
  | @land p idx slot hp hin =>
    refine hkeep hp rfl rfl rfl rfl rfl rfl (.inl rfl) (fun idx' => ?_)
    show (Function.update p.rxRing idx slot idx').ctrl? = none
    by_cases hidx : idx' = idx
    · rw [hidx, Function.update_self]
      exact hlands _ _ _ hin
    · rw [Function.update_of_ne hidx]
      exact (hb.peers _ p hp).ring idx'
  | @landCredit p v hp => exact hkeep hp rfl rfl rfl rfl rfl rfl (.inl rfl) (hb.peers _ p hp).ring

theorem Rules.fit (h : Rules cfg inp b b') (hb : b.Fit cfg heard)
    (hhears : ∀ a op i, inp.hears a op i → heard a i)
    (hlands : ∀ a idx slot, inp.lands a idx slot → slot.ctrl? = none) : b'.Fit cfg heard := by
  induction h with
  | refl => exact hb
  | tail _ hstep ih => exact hstep.fit ih hhears hlands

end RingBook

/-! ## Systems -/

namespace World

variable {ι : Type} [DecidableEq ι]

/-- **What arrives was sent.** A datagram comes from an endpoint whose socket accepted
it, to its destination; it may be delivered any number of times, at any time, or never.
A slot that lands was posted by someone. Everything else is up to the endpoints and their
environments. -/
def Delivers (w : World ι) (x : ι × EpAct) : Prop :=
  (w x.1).Admits x.2 ∧ match x.2 with
    | .recv _ src bytes => ∃ j, ∃ d ∈ (w j).wire,
        d.bytes = bytes ∧ d.dst = (w x.1).cfg.self ∧ src = (w j).cfg.self
    | .landSlot _ idx slot => ∃ j, ∃ op ∈ (w j).writes, op.loc = .stage idx slot
    | _ => True

/-- An endpoint of a system acts. -/
def step (w : World ι) (x : ι × EpAct) : World ι := w.actAt x.1 x.2

/-- A run of a system in which what arrives was sent. -/
def DeliveryRuns (cfg : ι → EpCfg) (domain : ι → Domain) (acts : List (ι × EpAct)) : Prop :=
  Along World.step World.Delivers (World.init cfg domain) acts

/-- What can be heard at an endpoint from an address: what the endpoint at that address
advertises to it. -/
def Heard (cfg : ι → EpCfg) (w : World ι) (k : ι) (a : UInt64) (i : RingInfo) : Prop :=
  ∃ j b q, rdsAvAddr (cfg k) a = some (cfg j).self ∧ rdsPeerFind (w j) b = some q
    ∧ q.sa = (cfg k).self ∧ q.info? (cfg j).geom = some i

/-- **The books of a system are fit.** -/
structure HandshakeInv (cfg : ι → EpCfg) (w : World ι) : Prop where
  config : ∀ j, (w j).cfg = cfg j
  fit : ∀ j, (w j).ringBook.Fit (cfg j) (w.Heard cfg j)

section Step

variable {cfg : ι → EpCfg} {w : World ι}

theorem step_self (w : World ι) (k : ι) (a : EpAct) : w.step (k, a) k = (w k).act a :=
  Function.update_self _ _ _

theorem step_of_ne (w : World ι) {j k : ι} (a : EpAct) (h : j ≠ k) : w.step (k, a) j = w j :=
  Function.update_of_ne h _ _

/-- Records last, wherever something happens. -/
theorem step_lasts (w : World ι) (x : ι × EpAct) {j : ι} {b : UInt64} {q : Peer}
    (hq : rdsPeerFind (w j) b = some q) :
    ∃ q', rdsPeerFind (w.step x j) b = some q' ∧ q.Lasts q' := by
  obtain ⟨k, a⟩ := x
  by_cases hj : j = k
  · subst hj
    rw [step_self]
    exact ((w j).act_ring a).2.lasts hq
  · rw [step_of_ne w a hj]
    exact ⟨q, hq, .refl q⟩

/-- What can be heard can be heard ever after. -/
theorem Heard.step {k : ι} {a : UInt64} {i : RingInfo} (h : w.Heard cfg k a i) (x : ι × EpAct) :
    (w.step x).Heard cfg k a i := by
  obtain ⟨j, b, q, hav, hq, hsa, hinfo⟩ := h
  obtain ⟨q', hq', hlasts⟩ := step_lasts w x hq
  exact ⟨j, b, q', hav, hq', hlasts.sa.trans hsa, (hlasts.info? _).trans hinfo⟩

end Step

end World

/-- The address vector's index of a source is where it lists it, if indices fit. -/
theorem rdsAvAddr_of_get {cfg : EpCfg} (hav : cfg.av.length ≤ 2 ^ 64) {src : SockAddr} {a : UInt64}
    (h : ofiIpAvGetFiAddr cfg src = a) (ha : a ≠ fiAddrNotavail) : rdsAvAddr cfg a = some src := by
  unfold ofiIpAvGetFiAddr at h
  split at h
  · exact absurd h.symm ha
  · rename_i e he
    have hsome := List.find?_some he
    have hget : cfg.av[e.2]? = some e.1 :=
      List.mem_zipIdx_iff_getElem?.mp (List.mem_of_find?_eq_some he)
    obtain ⟨hlt, -⟩ := List.getElem?_eq_some_iff.mp hget
    simp only [Bool.and_eq_true, beq_iff_eq, decide_eq_true_eq] at hsome
    rw [← h, rdsAvAddr, UInt64.toNat_ofNat', Nat.mod_eq_of_lt (hlt.trans_le hav),
      if_neg hsome.2, hget, hsome.1]

namespace World

variable {ι : Type} [DecidableEq ι] {cfg : ι → EpCfg} {w : World ι}

omit [DecidableEq ι] in
/-- **What an endpoint hears can be heard**: handshakes come as datagrams, and those were
sent; slots are none. -/
theorem HandshakeInv.hears (h : w.HandshakeInv cfg) (hav : ∀ j, (cfg j).av.length ≤ 2 ^ 64)
    {x : ι × EpAct} (hx : w.Delivers x) {a : UInt64} {op : UInt8} {i : RingInfo}
    (hin : ((w x.1).ringInput x.2).hears a op i) : w.Heard cfg x.1 a i := by
  obtain ⟨k, act⟩ := x
  cases act with
  | recv env src bytes =>
    obtain ⟨hctrl, hidx, hknown⟩ := hin
    obtain ⟨-, j, d, hd, rfl, hdst, rfl⟩ := hx
    rw [h.config] at hidx hdst
    have hctrl : d.ctrl? = some (op, i) := hctrl
    have hmem : (d.dst, op, i) ∈ (w j).ringBook.ctrl :=
      List.mem_filterMap.mpr ⟨d, hd, by rw [hctrl]; rfl⟩
    obtain ⟨b, q, hq, hsa, hinfo⟩ := (h.fit j).ctrl _ hmem
    refine ⟨j, b, q, ?_, hq, hsa.trans hdst, hinfo⟩
    rw [← h.config j]
    exact rdsAvAddr_of_get (hav k) hidx hknown
  | poll env addr =>
    obtain ⟨-, p, slot, hp, hnext, hctrl⟩ := hin
    rw [Peer.nextSlot_eq_some hnext, ((h.fit k).peers _ p hp).ring] at hctrl
    cases hctrl
  | send | inject | postRecv | cancel | rma | injectWrite | notify | retry | flush | landSlot
  | landCredit | shareDomain => exact hin.elim

/-- **One action keeps the books of a system fit**, if what is heard can be heard and
what lands is no handshake. -/
theorem HandshakeInv.step_of (h : w.HandshakeInv cfg) {x : ι × EpAct}
    (hhears : ∀ a op i, ((w x.1).ringInput x.2).hears a op i → w.Heard cfg x.1 a i)
    (hlands : ∀ a idx slot, ((w x.1).ringInput x.2).lands a idx slot → slot.ctrl? = none) :
    (w.step x).HandshakeInv cfg := by
  have hmono (j : ι) {b : RingBook} (hb : b.Fit (cfg j) (w.Heard cfg j)) :
      b.Fit (cfg j) ((w.step x).Heard cfg j) :=
    ⟨hb.key, fun a p hp => (hb.peers a p hp).mono (fun _ _ hheard => hheard.step x), hb.ctrl,
      hb.writes⟩
  obtain ⟨k, a⟩ := x
  obtain ⟨hcfg, hrules⟩ := (w k).act_ring a
  rw [h.config] at hcfg hrules
  have hk := hrules.fit (h.fit k) hhears hlands
  refine ⟨fun j => ?_, fun j => ?_⟩
  · by_cases hj : j = k
    · rw [hj, step_self]
      exact hcfg
    · rw [step_of_ne w a hj]
      exact h.config j
  · by_cases hj : j = k
    · subst hj
      rw [step_self]
      exact hmono j hk
    · rw [step_of_ne w a hj]
      exact hmono j (h.fit j)

omit [DecidableEq ι] in
/-- A slot that lands was posted, and is no handshake. -/
theorem HandshakeInv.lands (h : w.HandshakeInv cfg) {ep : Ep} {a : EpAct}
    (hposted : ∀ addr idx slot, a = .landSlot addr idx slot →
      ∃ j, ∃ op ∈ (w j).writes, op.loc = .stage idx slot) {addr : UInt64} {idx : ℕ}
    {slot : RingSlot} (hin : (ep.ringInput a).lands addr idx slot) : slot.ctrl? = none := by
  cases a with
  | landSlot addr' idx' slot' =>
    obtain ⟨-, rfl, rfl⟩ := hin
    obtain ⟨j, op, hop, hloc⟩ := hposted _ _ _ rfl
    exact (h.fit j).writes op hop _ _ hloc
  | send | inject | postRecv | cancel | rma | injectWrite | recv | notify | retry | poll | flush
  | landCredit | shareDomain => exact hin.elim

/-- What arrives was sent, so the books stay fit. -/
theorem HandshakeInv.step (h : w.HandshakeInv cfg) (hav : ∀ j, (cfg j).av.length ≤ 2 ^ 64)
    {x : ι × EpAct} (hx : w.Delivers x) : (w.step x).HandshakeInv cfg := by
  refine h.step_of (fun a op i hin => h.hears hav hx hin) (fun addr idx slot hin => ?_)
  refine h.lands (fun addr' idx' slot' heq => ?_) hin
  obtain ⟨-, hx⟩ := hx
  rw [heq] at hx
  exact hx

omit [DecidableEq ι] in
theorem HandshakeInv.init (cfg : ι → EpCfg) (domain : ι → Domain) :
    (World.init cfg domain).HandshakeInv cfg where
  config _ := rfl
  fit _ := ⟨fun _ _ hp => (by cases hp), fun _ _ hp => (by cases hp), fun _ hx => (by cases hx),
    fun _ hx => (by cases hx)⟩

/-- Records last through a whole run. -/
theorem run_lasts (w : World ι) (acts : List (ι × EpAct)) {j : ι} {b : UInt64} {q : Peer}
    (hq : rdsPeerFind (w j) b = some q) :
    ∃ q', rdsPeerFind (acts.foldl World.step w j) b = some q' ∧ q.Lasts q' := by
  induction acts generalizing w q with
  | nil => exact ⟨q, hq, .refl q⟩
  | cons x acts ih =>
    obtain ⟨q₁, hq₁, hlasts₁⟩ := step_lasts w x hq
    obtain ⟨q₂, hq₂, hlasts₂⟩ := ih (w.step x) hq₁
    exact ⟨q₂, hq₂, hlasts₁.trans hlasts₂⟩

/-- **The handshake is in order at a record**, which endpoint `k` keeps for an address. -/
structure Agrees (cfg : ι → EpCfg) (w : World ι) (k : ι) (p : Peer) : Prop where
  /-- A `READY` side knows the ring and the credit cell that the other side has registered
  for it, and both sides have its geometry. -/
  ready : p.state = .ready → ∃ j b q ring credit,
    p.sa = (cfg j).self ∧ rdsPeerFind (w j) b = some q ∧ q.sa = (cfg k).self
      ∧ ((cfg j).av.Nodup → ∀ b' q', rdsPeerFind (w j) b' = some q' → q'.sa = (cfg k).self → q' = q)
      ∧ q.rxRingMr = some ring ∧ q.creditMr = some credit
      ∧ p.remRingCookie = ring.cookie ∧ p.remCreditCookie = credit.cookie
      ∧ p.remSlots = (cfg k).geom.slots ∧ p.remSlots = (cfg j).geom.slots
      ∧ p.remSlotSize = (cfg k).geom.slotSize ∧ p.remSlotSize = (cfg j).geom.slotSize
      ∧ 1 ≤ p.remSlots.toNat
  mrs : p.state ≠ .disabled → p.rxRingMr ≠ none ∧ p.creditMr ≠ none
  head : p.state = .none ∨ p.state = .connecting → p.txHead = 0

omit [DecidableEq ι] in
theorem HandshakeInv.agrees (h : w.HandshakeInv cfg) {k : ι} {a : UInt64} {p : Peer}
    (hp : rdsPeerFind (w k) a = some p) : w.Agrees cfg k p := by
  have hfit := (h.fit k).peers a p hp
  refine ⟨fun hready => ?_, hfit.mrs, hfit.head⟩
  obtain ⟨⟨j, b, q, hav, hq, hqsa, hinfo⟩, hslots, hsize⟩ := hfit.ready hready
  obtain ⟨ring, credit, hring, hcredit, hknown⟩ := Peer.info?_eq_some hinfo
  have hpsa : p.sa = (cfg j).self := Option.some.inj (hfit.sa.symm.trans hav)
  refine ⟨j, b, q, ring, credit, hpsa, hq, hqsa, fun hnodup b' q' hq' hq'sa => ?_, hring, hcredit,
    congrArg RingInfo.ringCookie hknown, congrArg RingInfo.creditCookie hknown, hslots,
    congrArg RingInfo.slots hknown, hsize, congrArg RingInfo.slotSize hknown, ?_⟩
  · -- both are where the address vector lists the endpoint
    have hb := ((h.fit j).peers b q hq).sa
    have hb' := ((h.fit j).peers b' q' hq').sa
    rw [(h.fit j).key b q hq, hqsa] at hb
    rw [(h.fit j).key b' q' hq', hq'sa] at hb'
    obtain ⟨hlt, hget⟩ := List.getElem?_eq_some_iff.mp (getElem?_of_rdsAvAddr hb)
    obtain ⟨hlt', hget'⟩ := List.getElem?_eq_some_iff.mp (getElem?_of_rdsAvAddr hb')
    have hidx : b'.toNat = b.toNat := (hnodup.getElem_inj_iff).mp (hget'.trans hget.symm)
    rw [UInt64.toNat_inj.mp hidx, hq] at hq'
    exact (Option.some.inj hq').symm
  · rw [hslots]
    exact (cfg k).geom.slots_pos

/-- **Agreement.** In every state that a system of endpoints reaches, with any geometries,
any interleaving of sends on all sides, control datagrams lost, refused, delayed or
delivered more than once, registrations and allocations refused and deadlines passed, the
handshake is in order at every record; and a peer that is `DISABLED` stays so, whatever
happens next. -/
theorem handshake_agreement (cfg : ι → EpCfg) (hav : ∀ j, (cfg j).av.length ≤ 2 ^ 64)
    (domain : ι → Domain) (acts : List (ι × EpAct)) (hrun : DeliveryRuns cfg domain acts) (k : ι)
    (a : UInt64) (p : Peer)
    (hp : rdsPeerFind (acts.foldl World.step (World.init cfg domain) k) a = some p) :
    (acts.foldl World.step (World.init cfg domain)).Agrees cfg k p
      ∧ (p.state = .disabled → ∀ more, ∃ q,
        rdsPeerFind ((acts ++ more).foldl World.step (World.init cfg domain) k) a = some q
          ∧ q.state = .disabled) := by
  have hinv : (acts.foldl World.step (World.init cfg domain)).HandshakeInv cfg :=
    Along.invariant (fun w x h hx => h.step hav hx) (.init cfg domain) hrun
  refine ⟨hinv.agrees hp, fun hdisabled more => ?_⟩
  rw [List.foldl_append]
  obtain ⟨q, hq, hlasts⟩ := run_lasts _ more hp
  exact ⟨q, hq, hlasts.disabled hdisabled⟩

/-- Two endpoints with the ring on. -/
def ringPair (j : Fin 2) : EpCfg := EpCfg.standard true [10, 20] (if j = 0 then 10 else 20)

/-- The first endpoint sends, which asks for the ring of the second; the second answers. -/
def askAndAnswer : List (Fin 2 × EpAct) :=
  let env := Env.calm numberCookies
  [(0, .send env [⟨4096, 8⟩] 1 0 0 7 0 false),
    (1, .recv env 10 ((ctrlHdr rdsOpRingReq).encode ++ (⟨1, 2, 16, 1024⟩ : RingInfo).encode)),
    (0, .recv env 20 ((ctrlHdr rdsOpRingAck).encode ++ (⟨1, 2, 16, 1024⟩ : RingInfo).encode))]

/-- Both sides of that run are `READY` and agree. -/
theorem askAndAnswer_agrees :
    DeliveryRuns ringPair (fun _ => .opened true (some 3) 1024 268435456) askAndAnswer
      ∧ ∀ k : Fin 2, ∃ p,
        rdsPeerFind (askAndAnswer.foldl World.step (World.init ringPair
          (fun _ => .opened true (some 3) 1024 268435456)) k) (if k = 0 then 1 else 0) = some p
        ∧ p.state = .ready
        ∧ (askAndAnswer.foldl World.step (World.init ringPair
          (fun _ => .opened true (some 3) 1024 268435456))).Agrees ringPair k p := by
  have hrun : DeliveryRuns ringPair (fun _ => .opened true (some 3) 1024 268435456)
      askAndAnswer := by
    refine ⟨⟨trivial, trivial⟩, ⟨trivial, 0, ⟨10, 20, _⟩, ?_, rfl, rfl, rfl⟩,
      ⟨trivial, 1, ⟨20, 10, _⟩, ?_, rfl, rfl, rfl⟩, trivial⟩
    · decide +kernel
    · decide +kernel
  refine ⟨hrun, fun k => ?_⟩
  have hready : ((rdsPeerFind (askAndAnswer.foldl World.step (World.init ringPair
      (fun _ => .opened true (some 3) 1024 268435456)) k) (if k = 0 then 1 else 0)).map
      Peer.state) = some .ready := by
    revert k
    decide +kernel
  obtain ⟨p, hp, hstate⟩ := Option.map_eq_some_iff.mp hready
  exact ⟨p, hp, hstate, (handshake_agreement ringPair
    (fun _ => by simp [ringPair, EpCfg.standard]) _ _ hrun k _ p hp).1⟩

end World
