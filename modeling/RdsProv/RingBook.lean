import RdsProv.Inward
import Mathlib.Logic.Relation

/-!
# The ring, abstractly

What an endpoint knows of its peers, the handshakes it has sent and the writes it
has posted are its *ring book*. The ring code touches it in a few ways only, and
`RingBook.Rule` lists them: a record is created, a handshake is kicked off, given
up, refused or adopted; credit is read and returned; slots are staged, placed,
landed and consumed. The rules carry the guards of the code and nothing of its
control flow.

`RingBook.Quiet` are those rules that neither place nor consume a slot. A message
taken in, and a send that fails, do no more than that.
-/

/-! ## The peer table -/

theorem rdsPeerFind_addr {ep : Ep} {a : UInt64} {p : Peer} (h : rdsPeerFind ep a = some p) :
    p.addr = a := by
  simpa using List.find?_some h

theorem rdsPeerFind_updPeer (ep : Ep) (a : UInt64) {f : Peer → Peer}
    (hf : ∀ p, (f p).addr = p.addr) :
    rdsPeerFind (ep.updPeer a f)
      = Function.update (rdsPeerFind ep) a ((rdsPeerFind ep a).map f) := by
  funext b
  by_cases hb : b = a
  · rw [hb, Function.update_self]
    exact List.find?_modifyFirst (fun p hp => by rwa [hf]) ep.peers
  · rw [Function.update_of_ne hb]
    refine List.find?_modifyFirst_of_disjoint (fun p hp => ?_) ep.peers
    have hp : p.addr = a := by simpa using hp
    simp [hf, hp, Ne.symm hb]

/-- Writing back a record replaces the one under its address. -/
theorem rdsPeerFind_setPeer {ep : Ep} {p q : Peer} (h : rdsPeerFind ep q.addr = some p) :
    rdsPeerFind (ep.setPeer q) = Function.update (rdsPeerFind ep) q.addr (some q) := by
  funext b
  by_cases hb : b = q.addr
  · rw [hb, Function.update_self]
    have hfind := List.find?_modifyFirst (p := fun r : Peer => r.addr == q.addr)
      (f := fun _ => q) (fun _ _ => by simp) ep.peers
    rw [show ep.peers.find? (fun r => r.addr == q.addr) = some p from h] at hfind
    exact hfind
  · rw [Function.update_of_ne hb]
    refine List.find?_modifyFirst_of_disjoint (fun r hr => ?_) ep.peers
    have hr : r.addr = q.addr := by simpa using hr
    simp [hr, Ne.symm hb]

/-- A record stays under its address when it is written back. -/
theorem rdsPeerFind_setPeer_self {ep : Ep} {p q : Peer} (h : rdsPeerFind ep q.addr = some p) :
    rdsPeerFind (ep.setPeer q) q.addr = some q := by
  rw [rdsPeerFind_setPeer h]
  exact Function.update_self _ _ _

/-- The order of the table is of no concern to a search. -/
theorem rdsPeerFind_touchPeer {ep : Ep} {p : Peer} (h : rdsPeerFind ep p.addr = some p) :
    rdsPeerFind (ep.touchPeer p) = rdsPeerFind ep := by
  funext b
  show (p :: ep.peers.eraseP (·.addr == p.addr)).find? (·.addr == b) = _
  by_cases hb : b = p.addr
  · rw [hb, List.find?_cons_of_pos (by simp)]
    exact h.symm
  · obtain ⟨l₁, l₂, hl, -, -, herase, -⟩ := List.find?_split h
    rw [List.find?_cons_of_neg (by simpa using Ne.symm hb), herase]
    unfold rdsPeerFind
    rw [hl, List.find?_append, List.find?_append,
      List.find?_cons_of_neg (by simpa using Ne.symm hb)]

/-! ## Handshake messages -/

/-- The handshake a header and a payload are. -/
def Hdr.ctrl? (hdr : Hdr) (payload : List UInt8) : Option (UInt8 × RingInfo) :=
  if hdr.magic = rdsHdrMagic ∧ (hdr.op = rdsOpRingReq ∨ hdr.op = rdsOpRingAck)
      ∧ RingInfo.size ≤ payload.length then some (hdr.op, RingInfo.decode payload)
  else none

/-- The handshake a datagram carries. -/
def Dgram.ctrl? (d : Dgram) : Option (UInt8 × RingInfo) :=
  if d.bytes.length < rdsHdrSize then none
  else (Hdr.decode d.bytes).ctrl? (d.bytes.drop rdsHdrSize)

/-- The handshake a ring slot would be read as; the provider sends none. -/
def RingSlot.ctrl? (slot : RingSlot) : Option (UInt8 × RingInfo) :=
  if slot.op = rdsOpEager ∨ slot.len.toNat < rdsHdrSize then none
  else (Hdr.decode (slot.payload.take slot.len.toNat)).ctrl?
    ((slot.payload.take slot.len.toNat).drop rdsHdrSize)

theorem Hdr.ctrl?_eq_none {hdr : Hdr} (h : hdr.op ≠ rdsOpRingReq ∧ hdr.op ≠ rdsOpRingAck)
    (payload : List UInt8) : hdr.ctrl? payload = none :=
  if_neg (fun hc => hc.2.1.elim h.1 h.2)

theorem Dgram.ctrl?_eq_none {d : Dgram} (h : d.hdr.op ≠ rdsOpRingReq ∧ d.hdr.op ≠ rdsOpRingAck) :
    d.ctrl? = none := by
  unfold Dgram.ctrl?
  split
  · rfl
  · exact Hdr.ctrl?_eq_none h _

/-- A handshake is read as it was sent. -/
theorem Dgram.ctrl?_ctrlHdr (src dst : SockAddr) {op : UInt8}
    (hop : op = rdsOpRingReq ∨ op = rdsOpRingAck) (i : RingInfo) :
    (⟨src, dst, (ctrlHdr op).encode ++ i.encode⟩ : Dgram).ctrl? = some (op, i) := by
  unfold Dgram.ctrl?
  rw [if_neg (by simp), Hdr.decode_encode, Hdr.drop_encode, Hdr.ctrl?,
    if_pos ⟨rfl, hop, by rw [RingInfo.encode_length]⟩, RingInfo.decode_encode]
  rfl

/-- What a peer record advertises: its ring, its credit cell and the geometry. -/
def Peer.info? (g : RingGeom) (p : Peer) : Option RingInfo :=
  match p.rxRingMr, p.creditMr with
  | some ring, some credit => some ⟨ring.cookie, credit.cookie, g.slots, g.slotSize⟩
  | _, _ => none

/-! ## The rules -/

/-- A record as `rds_peer_create` leaves it: with a ring and a credit cell, or
disabled. -/
def Peer.Created (a : UInt64) (sa : SockAddr) (p : Peer) : Prop :=
  (∃ ring credit, p = { Peer.blank a sa with rxRingMr := some ring, creditMr := some credit })
    ∨ p = { Peer.blank a sa with state := .disabled }

/-- **The ring book**: the peers by address, the handshakes sent, the writes
posted. -/
structure RingBook where
  table : UInt64 → Option Peer
  ctrl : List (SockAddr × UInt8 × RingInfo)
  writes : List RdmaOp

/-- What comes in from outside. -/
structure RingInput where
  /-- A handshake from an address. -/
  hears : UInt64 → UInt8 → RingInfo → Prop
  /-- The deadline of a handshake may pass. -/
  expires : UInt64 → Prop
  /-- A slot lands in the ring kept for an address. -/
  lands : UInt64 → ℕ → RingSlot → Prop
  /-- Credit lands in the cell kept for an address. -/
  credits : UInt64 → UInt64 → Prop

/-- What anyone may say and land. -/
def RingInput.any : RingInput where
  hears _ _ _ := True
  expires _ := True
  lands _ _ _ := True
  credits _ _ := True

theorem RingInput.any_hears (a : UInt64) (op : UInt8) (i : RingInfo) :
    RingInput.any.hears a op i := trivial

theorem RingInput.any_expires (a : UInt64) : RingInput.any.expires a := trivial

namespace RingBook

/-- Put a record under its address. -/
def put (b : RingBook) (p : Peer) : RingBook :=
  { b with table := Function.update b.table p.addr (some p) }

/-- Record the handshakes sent. -/
def sending (b : RingBook) (ctrl : List (SockAddr × UInt8 × RingInfo)) : RingBook :=
  { b with ctrl := ctrl }

/-- Record a write. -/
def posting (b : RingBook) (w : RdmaOp) : RingBook := { b with writes := b.writes ++ [w] }

theorem table_put_self (b : RingBook) (p : Peer) : (b.put p).table p.addr = some p :=
  Function.update_self _ _ _

theorem table_put_of_ne (b : RingBook) {p : Peer} {a : UInt64} (h : a ≠ p.addr) :
    (b.put p).table a = b.table a := Function.update_of_ne h _ _

theorem put_put {b : RingBook} {p q : Peer} (h : p.addr = q.addr) : (b.put p).put q = b.put q := by
  unfold put
  rw [h, Function.update_idem]

theorem sending_put (b : RingBook) (ctrl : List (SockAddr × UInt8 × RingInfo)) (p : Peer) :
    (b.sending ctrl).put p = (b.put p).sending ctrl := rfl

/-- A handshake goes out, unless the socket refuses it. -/
def Sends (g : RingGeom) (b : RingBook) (p : Peer) (op : UInt8)
    (ctrl : List (SockAddr × UInt8 × RingInfo)) : Prop :=
  ctrl = b.ctrl ∨ ∃ i, p.info? g = some i ∧ ctrl = b.ctrl ++ [(p.sa, op, i)]

/-- **What happens to a book when no slot is placed or consumed.** -/
inductive Quiet (cfg : EpCfg) (inp : RingInput) : RingBook → RingBook → Prop
  /-- A record is created. -/
  | create {b : RingBook} {a : UInt64} {sa : SockAddr} {p : Peer} (hnone : b.table a = none)
      (hsa : rdsAvAddr cfg a = some sa) (hp : p.Created a sa) : Quiet cfg inp b (b.put p)
  /-- A handshake is kicked off. -/
  | kick {b : RingBook} {p : Peer} {t : UInt64} {ctrl} (hp : b.table p.addr = some p)
      (hstate : p.state = .none) (hctrl : b.Sends cfg.geom p rdsOpRingReq ctrl) :
      Quiet cfg inp b
        ((b.put { p with state := .connecting, connectStartMs := t }).sending ctrl)
  /-- A handshake is given up. -/
  | expire {b : RingBook} {p : Peer} (hp : b.table p.addr = some p)
      (hstate : p.state = .connecting) (hin : inp.expires p.addr) :
      Quiet cfg inp b (b.put { p with state := .disabled })
  /-- The other side's geometry is refused. -/
  | refuse {b : RingBook} {p : Peer} {op : UInt8} {i : RingInfo} (hp : b.table p.addr = some p)
      (hin : inp.hears p.addr op i) (hstate : p.state ≠ .disabled)
      (hring : p.rxRingMr ≠ none) (hcredit : p.creditMr ≠ none)
      (hgeom : i.slots ≠ cfg.geom.slots ∨ i.slotSize ≠ cfg.geom.slotSize) :
      Quiet cfg inp b (b.put { p with state := .disabled })
  /-- The other side's advertisement is adopted, and a request answered. -/
  | adopt {b : RingBook} {p : Peer} {op : UInt8} {i : RingInfo} {ctrl}
      (hp : b.table p.addr = some p) (hin : inp.hears p.addr op i) (hstate : p.state ≠ .disabled)
      (hring : p.rxRingMr ≠ none) (hcredit : p.creditMr ≠ none)
      (hslots : i.slots = cfg.geom.slots) (hsize : i.slotSize = cfg.geom.slotSize)
      (hctrl : b.Sends cfg.geom p rdsOpRingAck ctrl) :
      Quiet cfg inp b ((b.put (p.adopted i)).sending ctrl)
  /-- The credit cell is read. -/
  | refresh {b : RingBook} {p : Peer} (hp : b.table p.addr = some p) (hstate : p.state = .ready) :
      Quiet cfg inp b (b.put p.refreshCredit)
  /-- A slot is staged, and its write refused. -/
  | stage {b : RingBook} {p : Peer} {slot : RingSlot} (hp : b.table p.addr = some p)
      (hstate : p.state = .ready) (hfull : p.full = false) :
      Quiet cfg inp b (b.put (p.stage slot))

/-- **What happens to a book.** -/
inductive Rule (cfg : EpCfg) (inp : RingInput) : RingBook → RingBook → Prop
  | quiet {b b' : RingBook} (h : Quiet cfg inp b b') : Rule cfg inp b b'
  /-- A slot is staged and its write posted. -/
  | place {b : RingBook} {p : Peer} {op flags : UInt8} {tag data : UInt64}
      {payload : List UInt8} (hp : b.table p.addr = some p) (hstate : p.state = .ready)
      (hfull : p.full = false) (hlen : payload.length ≤ cfg.geom.payload)
      (hctrl : (p.fillSlot op flags tag data payload).ctrl? = none) :
      Rule cfg inp b
        ((b.put (p.advance (p.fillSlot op flags tag data payload))).posting
          (p.slotWrite (p.fillSlot op flags tag data payload)))
  /-- The credit a slot carries is absorbed. -/
  | absorb {b : RingBook} {p : Peer} {slot : RingSlot} (hp : b.table p.addr = some p)
      (hnext : p.nextSlot cfg.geom.slots = some slot) :
      Rule cfg inp b (b.put (p.absorbAck slot.ack))
  /-- A slot is consumed. -/
  | consume {b : RingBook} {p : Peer} {slot : RingSlot} (hp : b.table p.addr = some p)
      (hnext : p.nextSlot cfg.geom.slots = some slot) :
      Rule cfg inp b (b.put { p with rxHead := p.rxHead + 1 })
  /-- The return of credit is refused. -/
  | withhold {b : RingBook} {p : Peer} (hp : b.table p.addr = some p) :
      Rule cfg inp b (b.put { p with creditTx := p.rxHead })
  /-- Credit is returned. -/
  | credit {b : RingBook} {p : Peer} (hp : b.table p.addr = some p) :
      Rule cfg inp b
        ((b.put { p with creditTx := p.rxHead, rxCreditSent := p.rxHead }).posting
          ({ p with creditTx := p.rxHead } : Peer).creditWrite)
  /-- A slot lands. -/
  | land {b : RingBook} {p : Peer} {idx : ℕ} {slot : RingSlot} (hp : b.table p.addr = some p)
      (hin : inp.lands p.addr idx slot) :
      Rule cfg inp b (b.put { p with rxRing := Function.update p.rxRing idx slot })
  /-- Credit lands. -/
  | landCredit {b : RingBook} {p : Peer} {v : UInt64} (hp : b.table p.addr = some p)
      (hin : inp.credits p.addr v) : Rule cfg inp b (b.put { p with creditCell := v })

/-- Some quiet rules. -/
abbrev Quiets (cfg : EpCfg) (inp : RingInput) := Relation.ReflTransGen (Quiet cfg inp)

/-- Some rules. -/
abbrev Rules (cfg : EpCfg) (inp : RingInput) := Relation.ReflTransGen (Rule cfg inp)

variable {cfg : EpCfg} {inp : RingInput}

theorem Quiets.rules {b b' : RingBook} (h : Quiets cfg inp b b') : Rules cfg inp b b' :=
  Relation.ReflTransGen.mono (fun _ _ => Rule.quiet) _ _ h

end RingBook

/-! ## What the quiet rules keep -/

/-- What quiet rules leave of a record: everything but the handshake, the known
credit and the staging area. -/
structure Peer.Steady (p p' : Peer) : Prop where
  addr : p'.addr = p.addr
  sa : p'.sa = p.sa
  rxRing : p'.rxRing = p.rxRing
  rxRingMr : p'.rxRingMr = p.rxRingMr
  rxHead : p'.rxHead = p.rxHead
  rxCreditSent : p'.rxCreditSent = p.rxCreditSent
  creditCell : p'.creditCell = p.creditCell
  creditMr : p'.creditMr = p.creditMr
  txHead : p'.txHead = p.txHead
  creditTx : p'.creditTx = p.creditTx

namespace Peer.Steady

theorem refl (p : Peer) : p.Steady p := ⟨rfl, rfl, rfl, rfl, rfl, rfl, rfl, rfl, rfl, rfl⟩

theorem trans {p₁ p₂ p₃ : Peer} (h : p₁.Steady p₂) (h' : p₂.Steady p₃) : p₁.Steady p₃ where
  addr := h'.addr.trans h.addr
  sa := h'.sa.trans h.sa
  rxRing := h'.rxRing.trans h.rxRing
  rxRingMr := h'.rxRingMr.trans h.rxRingMr
  rxHead := h'.rxHead.trans h.rxHead
  rxCreditSent := h'.rxCreditSent.trans h.rxCreditSent
  creditCell := h'.creditCell.trans h.creditCell
  creditMr := h'.creditMr.trans h.creditMr
  txHead := h'.txHead.trans h.txHead
  creditTx := h'.creditTx.trans h.creditTx

theorem refreshCredit (p : Peer) : p.Steady p.refreshCredit := by
  unfold Peer.refreshCredit
  split
  · exact ⟨rfl, rfl, rfl, rfl, rfl, rfl, rfl, rfl, rfl, rfl⟩
  · exact refl p

end Peer.Steady

namespace RingBook

variable {cfg : EpCfg} {inp : RingInput} {b b' : RingBook}

/-- Putting a record back keeps every record steady if it is steady itself. -/
theorem steady_put {p q r : Peer} {a : UInt64} (hp : b.table p.addr = some p)
    (hr : b.table a = some r) (hq : p.Steady q) :
    ∃ r', (b.put q).table a = some r' ∧ r.Steady r' := by
  by_cases ha : a = q.addr
  · rw [ha, hq.addr, hp] at hr
    cases hr
    exact ⟨q, by rw [ha]; exact Function.update_self _ _ _, hq⟩
  · exact ⟨r, (Function.update_of_ne ha _ _).trans hr, .refl r⟩

/-- **A quiet rule keeps every record and its counters.** -/
theorem Quiet.steady (h : Quiet cfg inp b b') {a : UInt64} {p : Peer}
    (hp : b.table a = some p) : ∃ p', b'.table a = some p' ∧ p.Steady p' := by
  cases h with
  | @create a' sa q hnone hsa hq =>
    have haddr : q.addr = a' := by
      obtain ⟨ring, credit, rfl⟩ | rfl := hq
      · rfl
      · rfl
    refine ⟨p, (Function.update_of_ne ?_ _ _).trans hp, .refl p⟩
    rintro rfl
    rw [haddr, hnone] at hp
    cases hp
  | kick hq =>
    refine steady_put hq hp ?_
    exact ⟨rfl, rfl, rfl, rfl, rfl, rfl, rfl, rfl, rfl, rfl⟩
  | expire hq =>
    refine steady_put hq hp ?_
    exact ⟨rfl, rfl, rfl, rfl, rfl, rfl, rfl, rfl, rfl, rfl⟩
  | refuse hq =>
    refine steady_put hq hp ?_
    exact ⟨rfl, rfl, rfl, rfl, rfl, rfl, rfl, rfl, rfl, rfl⟩
  | adopt hq =>
    refine steady_put hq hp ?_
    exact ⟨rfl, rfl, rfl, rfl, rfl, rfl, rfl, rfl, rfl, rfl⟩
  | refresh hq => exact steady_put hq hp (.refreshCredit _)
  | stage hq =>
    refine steady_put hq hp ?_
    exact ⟨rfl, rfl, rfl, rfl, rfl, rfl, rfl, rfl, rfl, rfl⟩

theorem Quiets.steady (h : Quiets cfg inp b b') {a : UInt64} {p : Peer}
    (hp : b.table a = some p) : ∃ p', b'.table a = some p' ∧ p.Steady p' := by
  induction h with
  | refl => exact ⟨p, hp, .refl p⟩
  | tail _ hstep ih =>
    obtain ⟨q, hq, hsteady⟩ := ih
    obtain ⟨r, hr, hsteady'⟩ := hstep.steady hq
    exact ⟨r, hr, hsteady.trans hsteady'⟩

/-- Quiet rules post no write. -/
theorem Quiets.writes (h : Quiets cfg inp b b') : b'.writes = b.writes := by
  induction h with
  | refl => rfl
  | tail _ hstep ih =>
    rw [← ih]
    cases hstep <;> rfl

/-! ## Rules by which no slot is taken -/

/-- **A rule is calm** if it leaves every consumer counter. -/
def Calm (cfg : EpCfg) (inp : RingInput) (b b' : RingBook) : Prop :=
  Rule cfg inp b b'
    ∧ ∀ a p, b.table a = some p → ∃ p', b'.table a = some p' ∧ p'.rxHead = p.rxHead

/-- Some calm rules. -/
abbrev Calms (cfg : EpCfg) (inp : RingInput) := Relation.ReflTransGen (Calm cfg inp)

theorem Calms.rules (h : Calms cfg inp b b') : Rules cfg inp b b' :=
  Relation.ReflTransGen.mono (fun _ _ hcalm => hcalm.1) _ _ h

theorem Quiets.calms (h : Quiets cfg inp b b') : Calms cfg inp b b' := by
  refine Relation.ReflTransGen.mono (fun _ _ hquiet => ⟨.quiet hquiet, fun a p hp => ?_⟩) _ _ h
  obtain ⟨p', hp', hsteady⟩ := hquiet.steady hp
  exact ⟨p', hp', hsteady.rxHead⟩

/-- Putting a record back keeps every consumer counter if it keeps its own. -/
theorem rxHead_put {p q : Peer} (hp : b.table p.addr = some p) (haddr : q.addr = p.addr)
    (hhead : q.rxHead = p.rxHead) (a : UInt64) (r : Peer) (hr : b.table a = some r) :
    ∃ r', (b.put q).table a = some r' ∧ r'.rxHead = r.rxHead := by
  by_cases ha : a = q.addr
  · rw [ha, haddr, hp] at hr
    cases hr
    exact ⟨q, by rw [ha]; exact b.table_put_self q, hhead⟩
  · exact ⟨r, (b.table_put_of_ne ha).trans hr, rfl⟩

end RingBook
