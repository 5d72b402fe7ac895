import RdsProv.Matching
import RdsProv.Book.History
import Mathlib.Algebra.Order.Group.Multiset
import Mathlib.Logic.Relation

/-!
# The endpoint keeps the books

`Ep.book` reads the books off an endpoint. Each function of the receive side,
started in a state whose books balance, is a sequence of rules (`Sim`), so an
action of the endpoint is too: the branches of the code that no rule describes –
a parked read whose operation is gone, a notification for an operation that waits
for none – are not taken while ids have not wrapped.
-/

/-! ## Reading the books -/

/-- The request a message stands for; an eager message stands for none. -/
def Unexp.request? (m : Unexp) : Option (SockAddr × UInt64) :=
  if m.hdr.op = rdsOpEager then none else some (m.src, m.hdr.id)

/-- The request or the `FIN` that a header and a payload are to the endpoint they
arrive at. -/
def Hdr.ctl? (hdr : Hdr) (payload : List UInt8) (dst : SockAddr) : Option Ctl :=
  if hdr.magic ≠ rdsHdrMagic then none
  else if hdr.op = rdsOpFin then some (.fin dst hdr.id)
  else if hdr.op = rdsOpEager ∨ hdr.op = rdsOpRingReq ∨ hdr.op = rdsOpRingAck then none
  else if hdr.op = rdsOpRts ∧ payload.length < hdr.segCnt.toNat * rdsSegSize then none
  else some (.rts hdr.id)

/-- The request or the `FIN` a datagram carries. -/
def Dgram.ctl? (d : Dgram) : Option Ctl :=
  if d.bytes.length < rdsHdrSize then none
  else (Hdr.decode d.bytes).ctl? (d.bytes.drop rdsHdrSize) d.dst

/-- The request a ring slot carries. -/
def RdmaOp.ctl? (w : RdmaOp) : Option Ctl :=
  match w.loc with
  | .stage _ slot =>
    let bytes := slot.payload.take slot.len.toNat
    if slot.op = rdsOpEager ∨ slot.len.toNat < rdsHdrSize then none
    else (Hdr.decode bytes).ctl? (bytes.drop rdsHdrSize) w.dst
  | _ => none

/-- The events the books log. -/
def Event.booked (e : Event) : Bool := e.pairing?.isNone

/-- The books of an endpoint, with what it has in hand and the operation it works
on. -/
def Ep.book (ep : Ep) (hand : Multiset Hand) (cur : Option UInt64) : Book where
  pending := ep.pending
  inflight := ep.inflight
  parked := ep.deferred
  queue := ((ep.unexp false).filterMap Unexp.request? : List _)
    + ((ep.unexp true).filterMap Unexp.request? : List _)
  sent := (ep.wire.filterMap Dgram.ctl? : List _) + (ep.writes.filterMap RdmaOp.ctl? : List _)
  log := (ep.trace.filter Event.booked : List _)
  opId := ep.opId
  idsGiven := ep.idsGiven
  hand := hand
  cur := cur

theorem coe_concat {α : Type} (l : List α) (a : α) :
    ((l ++ [a] : List α) : Multiset α) = a ::ₘ (l : Multiset α) :=
  Quot.sound (List.perm_append_singleton a l)

/-- A datagram that is neither a request nor a `FIN` is not booked. -/
theorem Dgram.ctl?_eq_none {d : Dgram} (h : d.hdr.Plain) : d.ctl? = none := by
  unfold Dgram.hdr Hdr.Plain at h
  have hfin : (Hdr.decode d.bytes).op ≠ rdsOpFin := by
    rcases h with h | h | h
    · rw [h]
      decide
    · rw [h]
      decide
    · rw [h]
      decide
  unfold Dgram.ctl? Hdr.ctl?
  rw [if_neg hfin, if_pos h, ite_self, ite_self]

theorem RdmaOp.Plain.ctl? {w : RdmaOp} (h : w.Plain) : w.ctl? = none := by
  unfold RdmaOp.ctl?
  split
  · rename_i idx slot hloc
    exact if_pos (.inl (h idx slot hloc))
  · rfl

/-- **What faces outward is not booked.** -/
theorem Ep.Outer.book {ep ep' : Ep} (h : ep.Outer ep') (hand : Multiset Hand)
    (cur : Option UInt64) : ep'.book hand cur = ep.book hand cur := by
  obtain ⟨l, hl, hop⟩ := h.wire
  obtain ⟨l', hl', hplain⟩ := h.writes
  have hwire : ep'.wire.filterMap Dgram.ctl? = ep.wire.filterMap Dgram.ctl? := by
    have hnil : l.filterMap Dgram.ctl? = [] :=
      List.filterMap_eq_nil_iff.mpr (fun d hd => Dgram.ctl?_eq_none (hop d hd))
    rw [hl, List.filterMap_append, hnil, List.append_nil]
  have hwrites : ep'.writes.filterMap RdmaOp.ctl? = ep.writes.filterMap RdmaOp.ctl? := by
    have hnil : l'.filterMap RdmaOp.ctl? = [] :=
      List.filterMap_eq_nil_iff.mpr (fun w hw => (hplain w hw).ctl?)
    rw [hl', List.filterMap_append, hnil, List.append_nil]
  unfold Ep.book
  rw [h.pending, h.inflight, h.deferred, h.unexp, h.trace, h.opId, h.idsGiven, hwire, hwrites]

section Updates

variable (ep : Ep) (hand : Multiset Hand) (cur : Option UInt64) (t : ℕ)

theorem filter_booked_concat (l : List Event) {e : Event} (h : e.booked = true) :
    (l ++ [e]).filter Event.booked = l.filter Event.booked ++ [e] := by
  rw [List.filter_append, List.filter_singleton, h]
  rfl

theorem Ep.book_log {e : Event} (h : e.booked = true) :
    ({ ep with tick := t, trace := ep.trace ++ [e] } : Ep).book hand cur
      = { ep.book hand cur with log := e ::ₘ (ep.book hand cur).log } := by
  unfold Ep.book
  dsimp only
  rw [filter_booked_concat ep.trace h, coe_concat]

theorem Ep.book_inflight (op : RdmaOp) :
    ({ ep with tick := t, inflight := ep.inflight ++ [op] } : Ep).book hand cur
      = { ep.book hand cur with inflight := op ::ₘ (ep.book hand cur).inflight } := by
  unfold Ep.book
  dsimp only
  rw [coe_concat]

theorem Ep.book_deferred (d : Deferred) :
    ({ ep with tick := t, deferred := ep.deferred ++ [d] } : Ep).book hand cur
      = { ep.book hand cur with parked := d ::ₘ (ep.book hand cur).parked } := by
  unfold Ep.book
  dsimp only
  rw [coe_concat]

/-- The books in the middle of a call: with another table, with operations that
stay parked set aside, and with events that the code logs later. -/
def Ep.bookWith (ps : Multiset Pending) (kept : Multiset Deferred) (evs : Multiset Event) :
    Book :=
  { ep.book hand cur with
    pending := ps
    parked := kept + (ep.deferred : Multiset Deferred)
    log := evs + (ep.trace.filter Event.booked : List _) }

theorem Ep.book_eq {ps : Multiset Pending} (h : (ep.pending : Multiset Pending) = ps) :
    ep.book hand cur = ep.bookWith hand cur ps 0 0 := by
  unfold Ep.bookWith
  rw [← h, Multiset.zero_add, Multiset.zero_add]
  rfl

theorem Ep.Outer.bookWith {ep ep' : Ep} (h : ep.Outer ep') (hand : Multiset Hand)
    (cur : Option UInt64) (ps : Multiset Pending) (kept : Multiset Deferred)
    (evs : Multiset Event) :
    ep'.bookWith hand cur ps kept evs = ep.bookWith hand cur ps kept evs := by
  unfold Ep.bookWith
  rw [h.book, h.deferred, h.trace]

theorem ctl?_finDgram (src dst : SockAddr) (id : UInt64) :
    (finDgram src dst id).ctl? = some (.fin dst id) := by
  have hdec : Hdr.decode (finHdr id).encode = finHdr id := by
    have h := Hdr.decode_encode (finHdr id) []
    rwa [List.append_nil] at h
  unfold Dgram.ctl? Hdr.ctl? finDgram
  dsimp only
  rw [hdec, Hdr.encode_length, if_neg (lt_irrefl _), if_neg (fun h => h rfl),
    if_pos (show (finHdr id).op = rdsOpFin from rfl)]
  rfl

theorem Ep.book_fin (peer : SockAddr) (id : UInt64) :
    ({ ep with tick := t, wire := ep.wire ++ [finDgram ep.cfg.self peer id] } : Ep).book hand cur
      = { ep.book hand cur with sent := .fin peer id ::ₘ (ep.book hand cur).sent } := by
  have hwire : (ep.wire ++ [finDgram ep.cfg.self peer id]).filterMap Dgram.ctl?
      = ep.wire.filterMap Dgram.ctl? ++ [.fin peer id] := by
    rw [List.filterMap_append, List.filterMap_cons_some (ctl?_finDgram _ _ _)]
    rfl
  unfold Ep.book
  dsimp only
  rw [hwire, coe_concat, Multiset.cons_add]

end Updates

/-! ## Sequences of rules -/

/-- What an environment may lose. -/
def Env.Lossy (env : Env) : Prop := ¬ env.NoHardError ∨ ¬ env.AllocOk

/-- A sequence of rules. -/
abbrev Book.Sim (lossy reports : Prop) : Book → Book → Prop :=
  Relation.ReflTransGen (Book.Rule lossy reports)

namespace Book.Sim

variable {lossy reports : Prop} {b b' : Book}

theorem ok (h : Sim lossy reports b b') (hok : b.Ok) : b'.Ok := by
  induction h with
  | refl => exact hok
  | tail _ hrule ih => exact ih.rule hrule

theorem history (h : Sim lossy reports b b') (hok : b.Ok) (hh : b.History reports) :
    b'.History reports := by
  induction h with
  | refl => exact hh
  | tail hsim hrule ih => exact ih.rule (ok hsim hok) hrule

end Book.Sim

/-- The table of pending operations and the configuration are as they were. -/
structure Ep.Fixed (ep ep' : Ep) : Prop where
  pending : ep'.pending = ep.pending
  cfg : ep'.cfg = ep.cfg

namespace Ep.Fixed

theorem trans {e₁ e₂ e₃ : Ep} (h : e₁.Fixed e₂) (h' : e₂.Fixed e₃) : e₁.Fixed e₃ :=
  ⟨h'.pending.trans h.pending, h'.cfg.trans h.cfg⟩

theorem of_outer {ep ep' : Ep} (h : ep.Outer ep') : ep.Fixed ep' := ⟨h.pending, h.cfg⟩

theorem sendFin (env : Env) (ep : Ep) (peer : SockAddr) (id : UInt64) :
    ep.Fixed (rdsSendFin env ep peer id) := by
  rcases rdsSendFin_cases env ep peer id with h | h | ⟨-, t, h⟩
  · rw [h]
    exact ⟨rfl, rfl⟩
  · rw [h]
    exact ⟨rfl, rfl⟩
  · rw [h]
    exact ⟨rfl, rfl⟩

theorem finalize (env : Env) (ep : Ep) (p : Pending) :
    ep.Fixed (rdsRndzvRxFinalize env ep p) := by
  obtain ⟨e, cqes, hout, h, -⟩ := rdsRndzvRxFinalize_cases env ep p
  have he := (sendFin env ep p.peer p.peerId).trans (of_outer hout)
  rw [h]
  exact ⟨he.pending, he.cfg⟩

theorem issueReads (env : Env) (peer : SockAddr) (rts : UInt64) (rs : List ReadReq)
    (s : Ep × Pending) : s.1.Fixed (rs.foldl (rdsIssueRead env peer rts) s).1 :=
  rdsIssueReads_keeps (P := fun e _ => s.1.Fixed e) (fun _ _ _ _ h => ⟨h.pending, h.cfg⟩)
    (fun _ _ _ _ h => ⟨h.pending, h.cfg⟩) (fun _ _ _ _ h => ⟨h.pending, h.cfg⟩) rs ⟨rfl, rfl⟩

end Ep.Fixed

/-- A failure leaves everything but the error alone, and sets the error. -/
theorem Pending.fail_spec (p : Pending) {e : ℕ} (he : e ≠ 0) :
    p.Same (p.fail e) ∧ (p.fail e).segRemaining = p.segRemaining
      ∧ (p.fail e).segDeferred = p.segDeferred ∧ (p.fail e).error ≠ 0 := by
  unfold Pending.fail
  split
  · exact ⟨⟨rfl, rfl, rfl, rfl⟩, rfl, rfl, he⟩
  · rename_i herror
    exact ⟨.refl p, rfl, rfl, herror⟩

namespace Refine

open Book

variable {lossy reports : Prop} {env : Env} (hlossy : env.Lossy → lossy)

include hlossy in
/-- A `FIN` that is owed is sent, parked or lost. -/
theorem sendFin (ep : Ep) (peer : SockAddr) (id : UInt64) (hand : Multiset Hand)
    (cur : Option UInt64) (ps : Multiset Pending) (kept : Multiset Deferred)
    (evs : Multiset Event) :
    Sim lossy reports (ep.bookWith (.owe peer id ::ₘ hand) cur ps kept evs)
      ((rdsSendFin env ep peer id).bookWith hand cur ps kept evs) := by
  unfold Ep.bookWith
  rcases rdsSendFin_cases env ep peer id with h | h | ⟨hlost, t, h⟩
  · rw [h, Ep.book_fin]
    exact .single (.sendFin rfl)
  · rw [h, Ep.book_deferred]
    dsimp only
    rw [coe_concat, Multiset.add_cons]
    exact .single (.parkFin rfl)
  · rw [h, Ep.book_log ep hand cur t rfl]
    dsimp only
    rw [filter_booked_concat ep.trace rfl, coe_concat, Multiset.add_cons]
    exact .single (.loseFin (hlossy hlost) rfl)

include hlossy in
/-- A receive that waits for nothing more is finalized. -/
theorem finalize (ep : Ep) (q : Pending) (ps : Multiset Pending) (kept : Multiset Deferred)
    (hand : Multiset Hand) (hreports : reports → ep.cfg.hasRxCq = true)
    (htype : q.type = .rndzvRx) (hzero : q.segRemaining = 0 ∧ q.segDeferred = 0) :
    Sim lossy reports (ep.bookWith hand (some q.id) (q ::ₘ ps) kept 0)
      ((rdsRndzvRxFinalize env ep q).bookWith hand none ps kept 0) := by
  obtain ⟨e, cqes, hout, h, hreport⟩ := rdsRndzvRxFinalize_cases env ep q
  have hcfg : e.cfg = ep.cfg := hout.cfg.trans (Ep.Fixed.sendFin env ep q.peer q.peerId).cfg
  -- the books log the end before the `FIN` is dealt with, the code after
  have hbook : (rdsRndzvRxFinalize env ep q).bookWith hand none ps kept 0
      = (rdsSendFin env ep q.peer q.peerId).bookWith hand none ps kept {.rxDone q.id cqes} := by
    unfold Ep.bookWith
    rw [h, ← hout.book, ← hout.deferred, ← hout.trace]
    dsimp only [Ep.log]
    rw [filter_booked_concat e.trace rfl, coe_concat, Multiset.zero_add, Multiset.singleton_add]
    rfl
  rw [hbook]
  refine .head (b := (ep.bookWith (.owe q.peer q.peerId ::ₘ hand) none ps kept
    {.rxDone q.id cqes})) ?_ (sendFin hlossy ep q.peer q.peerId hand none ps kept _)
  have hrule : Rule lossy reports _ _ := .finalize cqes
    (show (ep.bookWith hand (some q.id) (q ::ₘ ps) kept 0).pending = q ::ₘ ps from rfl) rfl htype
    hzero (fun hr => hreport (hcfg ▸ hreports hr))
  exact hrule

/-- A read is issued, parked or failed. -/
theorem issueRead (lossy reports : Prop) (env : Env) (ep : Ep) (p : Pending)
    (ps : Multiset Pending) (hand : Multiset Hand) (r : ReadReq) (htype : p.type = .rndzvRx)
    (hbound : p.segRemaining.toNat + p.segDeferred.toNat + 1 < 2 ^ 32) :
    Sim lossy reports (ep.bookWith hand (some p.id) (p ::ₘ ps) 0 0)
        ((rdsIssueRead env p.peer p.peerId (ep, p) r).1.bookWith hand (some p.id)
          ((rdsIssueRead env p.peer p.peerId (ep, p) r).2 ::ₘ ps) 0 0)
      ∧ p.Same (rdsIssueRead env p.peer p.peerId (ep, p) r).2
      ∧ (rdsIssueRead env p.peer p.peerId (ep, p) r).2.segRemaining.toNat
          + (rdsIssueRead env p.peer p.peerId (ep, p) r).2.segDeferred.toNat
        ≤ p.segRemaining.toNat + p.segDeferred.toNat + 1 := by
  unfold Ep.bookWith
  rcases rdsIssueRead_cases env p.peer p.peerId ep p r with h | h | ⟨t, e, h⟩
  · rw [h]
    refine ⟨?_, ⟨rfl, rfl, rfl, rfl⟩, ?_⟩
    · rw [Ep.book_inflight]
      exact .single (.issue _ rfl rfl ⟨rfl, .inl ⟨htype, rfl, rfl⟩⟩ hbound ⟨rfl, rfl, rfl, rfl⟩
        rfl rfl rfl)
    · dsimp only
      rw [toNat_add_one (by omega)]
      omega
  · rw [h]
    refine ⟨?_, ⟨rfl, rfl, rfl, rfl⟩, ?_⟩
    · rw [Ep.book_deferred]
      dsimp only
      rw [coe_concat, Multiset.add_cons]
      exact .single (.park _ rfl rfl ⟨_, _, _, rfl, htype⟩ hbound ⟨rfl, rfl, rfl, rfl⟩
        rfl rfl rfl)
    · dsimp only
      rw [toNat_add_one (by omega)]
      omega
  · have hfail := p.fail_spec e.ne_zero
    rw [h]
    refine ⟨?_, hfail.1, ?_⟩
    · rw [Ep.book_log ep hand (some p.id) t rfl]
      dsimp only
      rw [filter_booked_concat ep.trace rfl, coe_concat, Multiset.add_cons]
      exact .single (.fail rfl rfl htype hfail.1 hfail.2.1 hfail.2.2.1 hfail.2.2.2)
    · dsimp only
      rw [hfail.2.1, hfail.2.2.1]
      omega

/-- The reads of a receive are issued, parked or failed one after the other. -/
theorem issueReads (env : Env) (peer : SockAddr) (rts : UInt64) (rs : List ReadReq) (ep : Ep)
    (p : Pending) (ps : Multiset Pending) (hand : Multiset Hand) (htype : p.type = .rndzvRx)
    (hpeer : p.peer = peer) (hrts : p.peerId = rts)
    (hbound : p.segRemaining.toNat + p.segDeferred.toNat + rs.length < 2 ^ 32) :
    Sim lossy reports (ep.bookWith hand (some p.id) (p ::ₘ ps) 0 0)
        ((rs.foldl (rdsIssueRead env peer rts) (ep, p)).1.bookWith hand (some p.id)
          ((rs.foldl (rdsIssueRead env peer rts) (ep, p)).2 ::ₘ ps) 0 0)
      ∧ p.Same (rs.foldl (rdsIssueRead env peer rts) (ep, p)).2 := by
  induction rs generalizing ep p with
  | nil => exact ⟨.refl, .refl p⟩
  | cons r rs ih =>
    rw [List.length_cons] at hbound
    obtain ⟨hsim, hsame, hcount⟩ := issueRead lossy reports env ep p ps hand r htype
      (by omega)
    rw [hpeer, hrts] at hsim hsame hcount
    rw [List.foldl_cons]
    generalize rdsIssueRead env peer rts (ep, p) r = s at hsim hsame hcount
    obtain ⟨e, q⟩ := s
    obtain ⟨hsim', hsame'⟩ := ih e q (hsame.type.trans htype) (hsame.peer.trans hpeer)
      (hsame.peerId.trans hrts) (by dsimp only at hcount; omega)
    rw [hsame.id] at hsim'
    exact ⟨hsim.trans hsim', hsame'.id.trans hsame.id, hsame'.type.trans hsame.type,
      hsame'.peer.trans hsame.peer, hsame'.peerId.trans hsame.peerId⟩

include hlossy in
/-- A `FIN` that is owed is sent, parked or lost. -/
theorem sendFin_owed (ep : Ep) (peer : SockAddr) (id : UInt64) (hand : Multiset Hand)
    (cur : Option UInt64) :
    Sim lossy reports (ep.book (.owe peer id ::ₘ hand) cur)
      ((rdsSendFin env ep peer id).book hand cur) := by
  rw [Ep.book_eq ep _ cur rfl, Ep.book_eq (rdsSendFin env ep peer id) hand cur
    (congrArg _ (Ep.Fixed.sendFin env ep peer id).pending)]
  exact sendFin hlossy ep peer id hand cur ep.pending 0 0

include hlossy in
/-- **A request that meets a receive** opens it and starts its reads, or is answered
with a `FIN` at once. -/
theorem startRndzvRead (ep : Ep) (rx : RxEntry) (hdr : Hdr) (segs : List Seg)
    (peer : SockAddr) (src : UInt64) (hand : Multiset Hand)
    (hreports : reports → ep.cfg.hasRxCq = true) (hsegs : segs.length < 2 ^ 16)
    (hids : (rdsStartRndzvRead env ep rx hdr segs peer src).idsGiven < 2 ^ 64) :
    Sim lossy reports (ep.book (.rts peer hdr.id ::ₘ hand) none)
      ((rdsStartRndzvRead env ep rx hdr segs peer src).book hand none) := by
  revert hids
  refine rdsStartRndzvRead_elim (fun _ _ => ?_) (fun _ e q hreads hids => ?_)
  · rw [(rdsCqWriteRx_outer _ _ _ _ _ _ _ _).book]
    exact .head (.refuse rfl) (sendFin_owed hlossy { ep with tick := ep.tick + 1 } peer hdr.id
      hand none)
  have hlen : (rndzvReads rx.iov (min hdr.size.toNat rx.totalLen) 0 segs).length < 2 ^ 16 :=
    (length_rndzvReads _ _ _ _).trans_lt hsegs
  obtain ⟨hissue, hsame⟩ : Sim lossy reports _ _ ∧ _ := issueReads env peer hdr.id
    (rndzvReads rx.iov (min hdr.size.toNat rx.totalLen) 0 segs) (ep.rxOpened rx hdr)
    (ep.rxOperation rx hdr peer src) ep.pending hand rfl rfl rfl (by
      show 0 + 0 + _ < _
      omega)
  have hfixed := Ep.Fixed.issueReads env peer hdr.id
    (rndzvReads rx.iov (min hdr.size.toNat rx.totalLen) 0 segs)
    (ep.rxOpened rx hdr, ep.rxOperation rx hdr peer src)
  have hmono := Ep.Unmatched.foldl_issueRead env peer hdr.id
    (rndzvReads rx.iov (min hdr.size.toNat rx.totalLen) 0 segs)
    (ep.rxOpened rx hdr, ep.rxOperation rx hdr peer src)
  rw [hreads] at hissue hsame hfixed hmono
  have hend : e.idsGiven ≤ (if q.segRemaining = 0 ∧ q.segDeferred = 0 then
      rdsRndzvRxFinalize env e q else e.linkPending q).idsGiven :=
    (Ep.Unmatched.ite (.finalize env e q) (.of_eq rfl)).idsGiven
  have hdrawn : ep.idsGiven + 1 < 2 ^ 64 := (hmono.idsGiven.trans hend).trans_lt hids
  have herror : (ep.rxOperation rx hdr peer src).error ≠ 0
      ↔ decide (rx.totalLen < hdr.size.toNat) = true := by
    rw [decide_eq_true_iff]
    show (if rx.totalLen < hdr.size.toNat then fiEtrunc.val else 0) ≠ 0 ↔ _
    split
    · rename_i hlt
      exact iff_of_true (by decide) hlt
    · rename_i hlt
      exact iff_of_false (fun h => h rfl) hlt
  have hopen : Rule lossy reports (ep.book (.rts peer hdr.id ::ₘ hand) none)
      ((ep.rxOpened rx hdr).bookWith hand (some (succId ep.opId))
        (ep.rxOperation rx hdr peer src ::ₘ ep.pending) 0 0) := by
    have hrule : Rule lossy reports (ep.book (.rts peer hdr.id ::ₘ hand) none) _ :=
      .openRx (p := ep.rxOperation rx hdr peer src) (decide (rx.totalLen < hdr.size.toNat)) hdrawn
        rfl rfl rfl rfl ⟨rfl, rfl⟩ herror
    unfold Ep.bookWith
    dsimp only [Ep.rxOpened, Ep.log]
    rw [filter_booked_concat ep.trace rfl, coe_concat, Multiset.zero_add, Multiset.zero_add]
    exact hrule
  refine .head hopen (hissue.trans ?_)
  have hpending : e.pending = ep.pending := hfixed.pending
  rw [← hsame.id]
  split
  · rename_i hzero
    rw [Ep.book_eq (rdsRndzvRxFinalize env e q) hand none
      (congrArg _ ((Ep.Fixed.finalize env e q).pending.trans hpending))]
    exact finalize hlossy e q ep.pending 0 hand (fun hr => hfixed.cfg ▸ hreports hr) hsame.type
      hzero
  · rename_i hzero
    refine .single ?_
    rw [Ep.book_eq (e.linkPending q) hand none ((coe_concat _ _).trans
      (congrArg (fun l : List Pending => q ::ₘ (l : Multiset Pending)) hpending))]
    refine .settle (show _ = q ::ₘ (ep.pending : Multiset Pending) from rfl) rfl (fun _ => ?_)
    by_contra hcon
    rw [not_or, not_not, not_not] at hcon
    exact hzero hcon

end Refine

/-! ## Messages -/

/-- What is in hand when a request is. -/
def Hand.ofRequest : Option (SockAddr × UInt64) → Multiset Hand
  | none => 0
  | some (src, id) => {.rts src id}

/-- The requests among messages. -/
def requests (l : List Unexp) : Multiset (SockAddr × UInt64) :=
  (l.filterMap Unexp.request? : List _)

theorem requests_append (l l' : List Unexp) : requests (l ++ l') = requests l + requests l' := by
  unfold requests
  rw [List.filterMap_append]
  rfl

theorem Unexp.requests_of_eager {m : Unexp} (h : m.hdr.op = rdsOpEager) :
    requests [m] = 0 ∧ Hand.ofRequest m.request? = 0 := by
  have hnone : m.request? = none := if_pos h
  rw [requests, List.filterMap_cons_none hnone, hnone]
  exact ⟨rfl, rfl⟩

theorem Unexp.requests_of_not_eager {m : Unexp} (h : m.hdr.op ≠ rdsOpEager) :
    requests [m] = {(m.src, m.hdr.id)} ∧ Hand.ofRequest m.request? = {.rts m.src m.hdr.id} := by
  have hsome : m.request? = some (m.src, m.hdr.id) := if_neg h
  rw [requests, List.filterMap_cons_some hsome, hsome]
  exact ⟨rfl, rfl⟩

/-- Moving messages onto one of the unexpected lists. -/
theorem requests_update (unexp : Bool → List Unexp) (k : Bool) (l : List Unexp)
    (x : Multiset (SockAddr × UInt64)) (h : requests l = x + requests (unexp k)) :
    requests (Function.update unexp k l false) + requests (Function.update unexp k l true)
      = x + (requests (unexp false) + requests (unexp true)) := by
  cases k with
  | false =>
    rw [Function.update_self, Function.update_of_ne (by decide), h, Multiset.add_assoc]
  | true =>
    rw [Function.update_self, Function.update_of_ne (by decide), h, add_left_comm]

theorem Ep.book_linkUnexp (ep : Ep) (hand : Multiset Hand) (cur : Option UInt64) (m : Unexp)
    (k : Bool) : (ep.linkUnexp m k).book hand cur
      = { ep.book hand cur with queue := requests [m] + (ep.book hand cur).queue } := by
  have hqueue := requests_update ep.unexp k (ep.unexp k ++ [m]) (requests [m]) (by
    rw [requests_append, Multiset.add_comm])
  unfold Ep.linkUnexp Ep.book
  dsimp only
  exact congrArg (fun q => { ep.book hand cur with queue := q }) hqueue

/-- Taking a message off a list. -/
theorem Ep.book_takeUnexp (ep : Ep) (hand : Multiset Hand) (cur : Option UInt64) {k : Bool}
    {test : Unexp → Bool} {m : Unexp} (hfind : (ep.unexp k).find? test = some m) :
    ep.book hand cur = { ep.book hand cur with
      queue := requests [m] + (({ ep with
        unexp := Function.update ep.unexp k
          ((ep.unexp k).eraseP test) } : Ep).book hand cur).queue } := by
  obtain ⟨l₁, l₂, hl, -, -, herase, -⟩ := List.find?_split hfind
  have hqueue := requests_update (Function.update ep.unexp k ((ep.unexp k).eraseP test)) k
    (ep.unexp k) (requests [m]) (by
      rw [Function.update_self, herase, hl, requests_append, requests_append,
        ← List.singleton_append, requests_append, add_left_comm])
  rw [Function.update_idem, Function.update_eq_self] at hqueue
  exact congrArg (fun q => { ep.book hand cur with queue := q }) hqueue

namespace Refine

open Book

variable {lossy reports : Prop} {env : Env} (hlossy : env.Lossy → lossy)

theorem book_paired (ep : Ep) (m : Unexp) (rx : RxEntry) (hand : Multiset Hand)
    (cur : Option UInt64) : (ep.log (.paired m rx)).book hand cur = ep.book hand cur := by
  have hlog : (ep.trace ++ [Event.paired m rx]).filter Event.booked
      = ep.trace.filter Event.booked := by
    rw [List.filter_append]
    exact List.append_nil _
  unfold Ep.log Ep.book
  dsimp only
  rw [hlog]

include hlossy in
/-- A message is given to a receive. -/
theorem deliver (ep : Ep) (rx : RxEntry) (m : Unexp)
    (hreports : reports → ep.cfg.hasRxCq = true) (hsegs : m.segs.length < 2 ^ 16)
    (hids : (rdsDeliver env ep rx m).idsGiven < 2 ^ 64) :
    Sim lossy reports (ep.book (Hand.ofRequest m.request?) none)
      ((rdsDeliver env ep rx m).book 0 none) := by
  revert hids
  rw [← book_paired ep m rx]
  refine rdsDeliver_elim (fun heager _ => ?_) (fun heager hids => ?_)
  · rw [(Unexp.requests_of_eager heager).2]
    exact .refl
  · rw [(Unexp.requests_of_not_eager heager).2]
    exact startRndzvRead hlossy _ rx m.hdr m.segs m.src m.addr 0 hreports hsegs hids

include hlossy in
/-- **A message arrives.** -/
theorem handleMessage (ep : Ep) (m : Unexp) (hreports : reports → ep.cfg.hasRxCq = true)
    (hsegs : m.segs.length < 2 ^ 16) (hids : (rdsHandleMessage env ep m).idsGiven < 2 ^ 64) :
    Sim lossy reports (ep.book (Hand.ofRequest m.request?) none)
      ((rdsHandleMessage env ep m).book 0 none) := by
  revert hids
  refine rdsHandleMessage_elim (fun rx _ hids => ?_) (fun _ t _ => ?_) (fun _ heager t _ => ?_)
    (fun hfailed t _ => ?_)
  · exact deliver hlossy { ep with
      arrivals := ep.arrivals + 1
      posted := Function.update ep.posted m.hdr.tagged ((ep.posted m.hdr.tagged).eraseP
        (fun rx => rdsMatches m.hdr.tagged rx m.addr m.hdr.tag)) } rx m hreports hsegs hids
  · rw [Ep.book_linkUnexp]
    by_cases heager : m.hdr.op = rdsOpEager
    · rw [(Unexp.requests_of_eager heager).2, (Unexp.requests_of_eager heager).1,
        Multiset.zero_add]
      exact .refl
    · rw [(Unexp.requests_of_not_eager heager).2, (Unexp.requests_of_not_eager heager).1,
        Multiset.singleton_add]
      exact .single (.enqueue rfl)
  · rw [(Unexp.requests_of_not_eager heager).2]
    exact .head (.refuse rfl) (sendFin_owed hlossy
      { ep with arrivals := ep.arrivals + 1, tick := t } m.src m.hdr.id 0 none)
  · by_cases heager : m.hdr.op = rdsOpEager
    · rw [(Unexp.requests_of_eager heager).2]
      exact .refl
    · rw [(Unexp.requests_of_not_eager heager).2]
      exact .single (.drop (hlossy (.inr hfailed)) rfl)

end Refine

/-! ## Inbound dispatch -/

/-- What an endpoint has in hand when a header and a payload have arrived. -/
def Hand.inbound (hdr : Hdr) (payload : List UInt8) (src : SockAddr) : Multiset Hand :=
  if hdr.magic ≠ rdsHdrMagic then 0
  else if hdr.op = rdsOpFin then {.fin hdr.id}
  else if hdr.op = rdsOpRingReq ∨ hdr.op = rdsOpRingAck then 0
  else if hdr.op = rdsOpRts ∧ payload.length < hdr.segCnt.toNat * rdsSegSize then 0
  else if hdr.op = rdsOpEager then 0
  else {.rts src hdr.id}

/-- **The table around the operation an id finds.** -/
theorem pending_split {ep : Ep} {id : UInt64} {p : Pending} (h : rdsPendingFind ep id = some p) :
    ∃ ps : Multiset Pending, (ep.pending : Multiset Pending) = p ::ₘ ps ∧ p.id = id
      ∧ (ep.pending.eraseP (·.id == id) : Multiset Pending) = ps
      ∧ ∀ q, (ep.pending.modifyFirst (·.id == id) (fun _ => q) : Multiset Pending) = q ::ₘ ps := by
  obtain ⟨l₁, l₂, hl, -, hid, herase, hmod⟩ := List.find?_split h
  refine ⟨(l₁ ++ l₂ : List Pending), ?_, beq_iff_eq.mp hid, by rw [herase], fun q => ?_⟩
  · rw [hl]
    exact Quot.sound List.perm_middle
  · rw [hmod]
    exact Quot.sound List.perm_middle

namespace Book.Ok

/-- What is in hand is of no concern to the balance. -/
theorem of_hand {ep : Ep} {hand : Multiset Hand} {cur : Option UInt64}
    (h : (ep.book hand cur).Ok) (hand' : Multiset Hand) : (ep.book hand' cur).Ok :=
  h.keep rfl rfl rfl rfl (fun _ hd _ => hd) (fun _ => rfl) rfl

end Book.Ok

namespace Refine

open Book

variable {lossy reports : Prop} {env : Env} (hlossy : env.Lossy → lossy)

/-- A `FIN` arrives. -/
theorem handleFin (ep : Ep) (id : UInt64) (hok : (ep.book 0 none).Ok) :
    Sim lossy reports (ep.book {.fin id} none)
      ((match rdsPendingFind ep id with
        | none => ep
        | some p => if p.type = PendType.rndzvTx then rdsPendingComplete ep p else ep).book 0
        none) := by
  cases hfind : rdsPendingFind ep id with
  | none =>
    refine .single (.stray rfl (fun p hp _ hid => ?_))
    have hno := List.find?_eq_none.mp hfind p (Multiset.mem_coe.mp hp)
    exact hno (beq_iff_eq.mpr hid)
  | some p =>
    obtain ⟨ps, hps, hid, herase, -⟩ := pending_split hfind
    have hmem : p ∈ (ep.book 0 none).pending := by
      show p ∈ (ep.pending : Multiset Pending)
      rw [hps]
      exact Multiset.mem_cons_self p ps
    dsimp only
    split
    · rename_i htype
      obtain ⟨e, n, hout, h⟩ := rdsPendingComplete_tx ep htype
      have hbook : (rdsPendingComplete ep p).book 0 none = { ep.book 0 none with
          pending := ps
          log := .txDone p.id ::ₘ (ep.book 0 none).log } := by
        rw [← hout.book, h, ← herase, ← hout.pending, ← hid]
        unfold Ep.book
        dsimp only
        rw [filter_booked_concat e.trace rfl, coe_concat]
      rw [hbook, ← hid]
      have hrule : Rule lossy reports (ep.book {.fin p.id} none) _ :=
        .finIn (Multiset.cons_zero _).symm hps htype
      exact .single hrule
    · rename_i htype
      refine .single (.stray rfl (fun q hq hqtype hqid => ?_))
      rw [hok.eq_of_id hq hmem (hqid.trans hid.symm)] at hqtype
      exact htype hqtype

include hlossy in
/-- **A header and a payload arrive.** -/
theorem handleInbound (ep : Ep) (hdr : Hdr) (payload : List UInt8) (src : SockAddr)
    (srcFi : UInt64) (hok : (ep.book 0 none).Ok) (hreports : reports → ep.cfg.hasRxCq = true)
    (hids : (rdsHandleInbound env ep hdr payload src srcFi).idsGiven < 2 ^ 64) :
    Sim lossy reports (ep.book (Hand.inbound hdr payload src) none)
      ((rdsHandleInbound env ep hdr payload src srcFi).book 0 none) := by
  unfold rdsHandleInbound at hids ⊢
  unfold Hand.inbound
  split
  · exact .refl
  rename_i hmagic
  rw [if_neg hmagic] at hids
  split
  · rename_i hfin
    exact handleFin ep hdr.id hok
  rename_i hfin
  rw [if_neg hfin] at hids
  split
  · rw [(rdsRingHandleCtrl_outer env ep hdr payload srcFi).book]
  rename_i hring
  rw [if_neg hring] at hids
  split
  · exact .refl
  rename_i hshort
  rw [if_neg hshort] at hids
  have hmsg := handleMessage hlossy ep (Unexp.ofInbound hdr payload src srcFi ep.arrivals)
    hreports (by
      unfold Unexp.ofInbound
      dsimp only
      split
      · exact Nat.pow_pos Nat.zero_lt_two
      · rw [decodeSegs_length]
        exact hdr.segCnt.toNat_lt) hids
  split
  · rename_i heager
    rw [show Hand.ofRequest (Unexp.ofInbound hdr payload src srcFi ep.arrivals).request? = 0 from
      (Unexp.requests_of_eager heager).2] at hmsg
    exact hmsg
  · rename_i heager
    rw [show Hand.ofRequest (Unexp.ofInbound hdr payload src srcFi ep.arrivals).request?
      = {.rts src hdr.id} from (Unexp.requests_of_not_eager heager).2] at hmsg
    exact hmsg

include hlossy in
/-- **A receive is posted.** -/
theorem postRecv (ep : Ep) (iov : List Iovec) (addr tag ignore : UInt64) (context : ℕ)
    (flags : UInt64) (tagged : Bool) (hreports : reports → ep.cfg.hasRxCq = true)
    (hsegs : ∀ k, ∀ m ∈ ep.unexp k, m.segs.length < 2 ^ 16)
    (hids : (rdsPostRecv env ep iov addr tag ignore context flags tagged).1.idsGiven < 2 ^ 64) :
    Sim lossy reports (ep.book 0 none)
      ((rdsPostRecv env ep iov addr tag ignore context flags tagged).1.book 0 none) := by
  revert hids
  refine rdsPostRecv_elim (fun _ _ => .refl) (fun rx _ ux hfind hids => ?_) (fun _ _ _ _ _ => .refl)
    (fun _ _ _ _ => .refl)
  have hdeliver : Sim lossy reports _ _ := deliver hlossy { ep with
    postings := ep.postings + 1
    unexp := Function.update ep.unexp tagged ((ep.unexp tagged).eraseP
      (fun ux => rdsMatches tagged rx ux.addr ux.hdr.tag)) } rx ux hreports
    (hsegs tagged ux (List.mem_of_find?_eq_some hfind)) hids
  refine .trans ?_ hdeliver
  rw [Ep.book_takeUnexp ep 0 none hfind]
  by_cases heager : ux.hdr.op = rdsOpEager
  · rw [(Unexp.requests_of_eager heager).1, (Unexp.requests_of_eager heager).2,
      Multiset.zero_add]
    exact .refl
  · rw [(Unexp.requests_of_not_eager heager).1, (Unexp.requests_of_not_eager heager).2,
      Multiset.singleton_add]
    exact .single (.take rfl)

/-! ### Notifications -/

/-- An operation in flight finds its owner. -/
theorem find_of_inflight {ep : Ep} (hok : (ep.book 0 none).Ok) {op : RdmaOp}
    (hop : op ∈ ep.inflight) : ∃ p, rdsPendingFind ep op.token = some p ∧ op.Owner p := by
  obtain ⟨q, hq, howner⟩ := hok.owned op hop
  have hsome : (rdsPendingFind ep op.token).isSome := by
    rw [rdsPendingFind, List.find?_isSome]
    exact ⟨q, Multiset.mem_coe.mp hq, beq_iff_eq.mpr howner.1⟩
  obtain ⟨p, hfind⟩ := Option.isSome_iff_exists.mp hsome
  refine ⟨p, hfind, ?_⟩
  have hp : p ∈ (ep.book 0 none).pending := Multiset.mem_coe.mpr (List.mem_of_find?_eq_some hfind)
  have hid : p.id = op.token := beq_iff_eq.mp (List.find?_eq_some_iff_append.mp hfind).1
  exact hok.owner_eq hop hp hid.symm

include hlossy in
/-- An acknowledged operation goes on waiting, or ends. -/
theorem conclude (ep : Ep) (q : Pending) (ps : Multiset Pending)
    (hstore : (ep.pending.modifyFirst (·.id == q.id) (fun _ => q) : Multiset Pending) = q ::ₘ ps)
    (herase : (ep.pending.eraseP (·.id == q.id) : Multiset Pending) = ps)
    (htx : q.type ≠ .rndzvTx) (hreports : reports → ep.cfg.hasRxCq = true) :
    Sim lossy reports (ep.bookWith 0 (some q.id) (q ::ₘ ps) 0 0)
      ((if q.segRemaining ≠ 0 then ep.storePending q
        else match q.type with
          | .rma => rdsPendingComplete ep q
          | .rndzvRx => if q.segDeferred = 0 then
              (rdsRndzvRxFinalize env ep q).unlinkPending q.id
            else ep.storePending q
          | .rndzvTx => ep.storePending q).book 0 none) := by
  have hsettle : (q.type = .rndzvRx → q.segRemaining ≠ 0 ∨ q.segDeferred ≠ 0) →
      Sim lossy reports (ep.bookWith 0 (some q.id) (q ::ₘ ps) 0 0)
        ((ep.storePending q).book 0 none) := by
    intro hlive
    rw [Ep.book_eq (ep.storePending q) 0 none hstore]
    exact .single (.settle (show _ = q ::ₘ ps from rfl) rfl hlive)
  by_cases hzero : q.segRemaining = 0
  · rw [if_neg (not_not.mpr hzero)]
    split
    · rename_i htype
      obtain ⟨e, hout, h⟩ := rdsPendingComplete_rma ep htype
      rw [← hout.pending] at herase
      rw [h, Ep.book_eq _ 0 none herase, ← hout.bookWith]
      exact .single (.endRma (show _ = q ::ₘ ps from rfl) rfl htype hzero)
    · rename_i htype
      split
      · rename_i hdeferred
        rw [← (Ep.Fixed.finalize env ep q).pending] at herase
        rw [Ep.book_eq ((rdsRndzvRxFinalize env ep q).unlinkPending q.id) 0 none herase]
        exact finalize hlossy ep q ps 0 0 hreports htype ⟨hzero, hdeferred⟩
      · rename_i hdeferred
        exact hsettle (fun _ => .inr hdeferred)
    · rename_i htype
      exact absurd htype htx
  · rw [if_pos hzero]
    exact hsettle (fun _ => .inl hzero)

include hlossy in
/-- **An operation in flight is notified.** -/
theorem notify (ep : Ep) (op : RdmaOp) (status : ℤ) (hop : op ∈ ep.inflight)
    (hok : (ep.book 0 none).Ok) (hreports : reports → ep.cfg.hasRxCq = true) :
    Sim lossy reports (ep.book 0 none)
      ((rdsHandleRdmaNotify env { ep with inflight := ep.inflight.erase op } op.token
        status).book 0 none) := by
  obtain ⟨p, hfind, howner⟩ := find_of_inflight hok hop
  obtain ⟨ps, hps, hid, herase, hmod⟩ := pending_split hfind
  have hmem : p ∈ (ep.book 0 none).pending :=
    Multiset.mem_coe.mpr (List.mem_of_find?_eq_some hfind)
  have hpos : p.segRemaining ≠ 0 := fun h0 => by
    have hlt := hok.outstanding_pos hop hmem howner
    rw [h0] at hlt
    exact absurd hlt (Nat.lt_irrefl 0)
  have herror : (p.heed status).error ≠ 0 ↔ p.error ≠ 0 ∨ (status == 0) = false := by
    rw [p.heed_error status, beq_eq_false_iff_ne]
  rw [rdsHandleRdmaNotify_found env
    (show rdsPendingFind { ep with inflight := ep.inflight.erase op } op.token = some p from hfind)]
  dsimp only
  rw [if_neg hpos]
  -- the acknowledgement is counted
  have hack : Rule lossy reports (ep.book 0 none)
      (Ep.bookWith { ep with
          inflight := ep.inflight.erase op, trace := ep.trace ++ p.acks status } 0 (some p.id)
        ({ p with error := (p.heed status).error, segRemaining := p.segRemaining - 1 } ::ₘ ps)
        0 0) := by
    have hops : (ep.book 0 none).inflight = op ::ₘ (ep.inflight.erase op : List RdmaOp) :=
      Quot.sound (List.perm_cons_erase hop)
    have hrule : Rule lossy reports (ep.book 0 none) _ := .ack
      (q := { p with error := (p.heed status).error, segRemaining := p.segRemaining - 1 })
      (status == 0) hps hops rfl howner ⟨rfl, rfl, rfl, rfl⟩ rfl rfl herror
    unfold Ep.bookWith Pending.acks
    split
    · rename_i htype
      rw [if_pos htype] at hrule
      dsimp only
      rw [filter_booked_concat ep.trace rfl, coe_concat, Multiset.zero_add, Multiset.zero_add]
      exact hrule
    · rename_i htype
      rw [if_neg htype] at hrule
      rw [List.append_nil, Multiset.zero_add, Multiset.zero_add]
      exact hrule
  refine .head hack ?_
  rw [← hid] at hmod herase
  exact conclude hlossy { ep with
      inflight := ep.inflight.erase op, trace := ep.trace ++ p.acks status }
    { p with error := (p.heed status).error, segRemaining := p.segRemaining - 1 } ps (hmod _) herase
    howner.type_ne hreports

/-! ### The deferred queue -/

include hlossy in
/-- A receive with one read less parked goes on waiting, or is finalized. -/
theorem finish (ep : Ep) (q : Pending) (ps : Multiset Pending) (kept : Multiset Deferred)
    (hstore : (ep.pending.modifyFirst (·.id == q.id) (fun _ => q) : Multiset Pending) = q ::ₘ ps)
    (herase : (ep.pending.eraseP (·.id == q.id) : Multiset Pending) = ps)
    (htype : q.type = .rndzvRx) (hreports : reports → ep.cfg.hasRxCq = true) {r : Ep}
    (hr : (if q.segRemaining = 0 ∧ q.segDeferred = 0 then
      (rdsRndzvRxFinalize env ep q).unlinkPending q.id else ep.storePending q) = r) :
    Sim lossy reports (ep.bookWith 0 (some q.id) (q ::ₘ ps) kept 0)
      (r.bookWith 0 none r.pending kept 0) := by
  split at hr
  · rename_i hzero
    rw [← (Ep.Fixed.finalize env ep q).pending] at herase
    have hpending : (r.pending : Multiset Pending) = ps := by
      rw [← hr]
      exact herase
    rw [hpending, ← hr]
    exact finalize hlossy ep q ps kept 0 hreports htype hzero
  · rename_i hzero
    have hpending : (r.pending : Multiset Pending) = q ::ₘ ps := by
      rw [← hr]
      exact hstore
    rw [hpending, ← hr]
    refine .single (.settle (show _ = q ::ₘ ps from rfl) rfl (fun _ => ?_))
    by_contra hcon
    rw [not_or, not_not, not_not] at hcon
    exact hzero hcon

include hlossy in
/-- A parked read is tried again. -/
theorem retryRead (ep : Ep) (peer : SockAddr) (req : ReadReq) (id rts : UInt64)
    (kept : Multiset Deferred)
    (hok : (ep.bookWith 0 none ep.pending
      (.read peer req.cookie req.remoteOff req.liov id rts ::ₘ kept) 0).Ok)
    (hreports : reports → ep.cfg.hasRxCq = true) {r : Ep × Bool}
    (hr : rdsRetryRead env ep peer req id rts = r) :
    Sim lossy reports
      (ep.bookWith 0 none ep.pending
        (.read peer req.cookie req.remoteOff req.liov id rts ::ₘ kept) 0)
      (r.1.bookWith 0 none r.1.pending (if r.2 then
        .read peer req.cookie req.remoteOff req.liov id rts ::ₘ kept else kept) 0) := by
  set d : Deferred := .read peer req.cookie req.remoteOff req.liov id rts with hd
  set b := ep.bookWith 0 none ep.pending (d ::ₘ kept) 0 with hb
  have hdmem : d ∈ b.parked := Multiset.mem_add.mpr (.inl (Multiset.mem_cons_self d kept))
  have hparked : b.parked = d ::ₘ (kept + (ep.deferred : Multiset Deferred)) :=
    Multiset.cons_add d kept _
  obtain ⟨p, hp, howner⟩ := hok.parkedOwned d hdmem (by simp [hd, Deferred.readId?])
  have hpid : p.id = id := Option.some.inj howner.readId?.symm
  obtain ⟨p', hfind⟩ : ∃ p', rdsPendingFind ep id = some p' := by
    refine Option.isSome_iff_exists.mp ?_
    rw [rdsPendingFind, List.find?_isSome]
    exact ⟨p, Multiset.mem_coe.mp hp, beq_iff_eq.mpr hpid⟩
  obtain ⟨ps, hps, hid, herase, hmod⟩ := pending_split hfind
  have hpp : p' = p := hok.eq_of_id
    (Multiset.mem_coe.mpr (List.mem_of_find?_eq_some hfind)) hp (hid.trans hpid.symm)
  rw [hpp] at hfind hps hid
  have hpos : p.segDeferred ≠ 0 := fun h0 => by
    have hlt := hok.parkedReads_pos hdmem hp howner
    rw [h0] at hlt
    exact absurd hlt (Nat.lt_irrefl 0)
  have hunder : p.underflows id = [] := if_neg hpos
  rcases rdsRetryRead_cases env ep peer req id rts
    with ⟨hnone, -⟩ | ⟨p', hfind', ⟨t, h⟩ | ⟨e, q, h, hstep⟩⟩
  · -- the owner is there
    rw [hfind] at hnone
    cases hnone
  · rw [← hr, h]
    exact .refl
  · cases hfind.symm.trans hfind'
    obtain ⟨hpeer, hrts, htype⟩ : peer = p.peer ∧ rts = p.peerId ∧ p.type = .rndzvRx := by
      obtain ⟨_, _, _, heq, htype⟩ := howner
      rw [hd] at heq
      cases heq
      exact ⟨rfl, rfl, htype⟩
    have hfixed : ep.Fixed e := by
      rcases hstep with ⟨t, rfl, -⟩ | ⟨t, err, rfl, -⟩
      · exact ⟨rfl, rfl⟩
      · exact ⟨rfl, rfl⟩
    have hsame : p.Same q := by
      rcases hstep with ⟨t, -, rfl⟩ | ⟨t, err, -, rfl⟩
      · exact ⟨rfl, rfl, rfl, rfl⟩
      · obtain ⟨⟨h₁, h₂, h₃, h₄⟩, -⟩ :=
          Pending.fail_spec { p with segDeferred := p.segDeferred - 1 } err.ne_zero
        exact ⟨h₁, h₂, h₃, h₄⟩
    -- the read is counted as issued or as failed
    have hcount : Rule lossy reports b (e.bookWith 0 (some q.id) (q ::ₘ ps) kept 0) := by
      rw [hsame.id]
      rcases hstep with ⟨t, rfl, rfl⟩ | ⟨t, err, rfl, rfl⟩
      · have hrule : Rule lossy reports b _ := .reissue (req.op peer id rts) hps hparked rfl howner
          ⟨hid, .inl ⟨htype, hpeer, congrArg some hrts⟩⟩ hsame rfl rfl rfl
        rw [hunder, List.append_nil]
        unfold Ep.bookWith
        rw [Ep.book_inflight]
        exact hrule
      · obtain ⟨-, hrem, hdef, herror⟩ :=
          Pending.fail_spec { p with segDeferred := p.segDeferred - 1 } err.ne_zero
        have hrule : Rule lossy reports b _ :=
          .failParked hps hparked rfl howner hsame hrem hdef herror
        rw [hunder, List.append_nil]
        unfold Ep.bookWith
        rw [Ep.book_log ep 0 (some p.id) t rfl]
        dsimp only
        rw [filter_booked_concat ep.trace rfl, coe_concat, Multiset.add_cons]
        exact hrule
    rw [← hfixed.pending, ← hid, ← hsame.id] at hmod herase
    rw [← hr, h]
    exact .head hcount (finish hlossy e q ps kept (hmod q) herase (hsame.type.trans htype)
      (fun hrep => hfixed.cfg ▸ hreports hrep) rfl)

include hlossy in
/-- A parked `FIN` is tried again. -/
theorem retryFin (ep : Ep) (peer : SockAddr) (id : UInt64) (kept : Multiset Deferred)
    {r : Ep × Bool} (hr : rdsRetryDeferred env ep (.fin peer id) = r) :
    Sim lossy reports (ep.bookWith 0 none ep.pending (.fin peer id ::ₘ kept) 0)
      (r.1.bookWith 0 none r.1.pending (if r.2 then .fin peer id ::ₘ kept else kept) 0) := by
  have hretry : Rule lossy reports (ep.bookWith 0 none ep.pending (.fin peer id ::ₘ kept) 0)
      (ep.bookWith {.owe peer id} none ep.pending kept 0) := by
    have hrule : Rule lossy reports (ep.bookWith 0 none ep.pending (.fin peer id ::ₘ kept) 0) _ :=
      .retryFin (Multiset.cons_add _ kept _)
    exact hrule
  rw [← hr]
  rcases rdsRetryFin_cases env ep peer id with h | h | ⟨hlost, h⟩
  · rw [h]
    refine .head hretry ?_
    unfold Ep.bookWith
    rw [Ep.book_fin]
    exact .single (.sendFin (Multiset.cons_zero _).symm)
  · rw [h]
    exact .refl
  · rw [h]
    refine .head hretry ?_
    unfold Ep.bookWith
    rw [Ep.book_log ep 0 none _ rfl]
    dsimp only
    rw [filter_booked_concat ep.trace rfl, coe_concat, Multiset.add_cons]
    exact .single (.loseFin (hlossy (.inl hlost)) (Multiset.cons_zero _).symm)

include hlossy in
/-- **The deferred queue is walked.** The operations set aside and those still to be
visited are together what is parked. -/
theorem progressDeferredLoop (fuel : ℕ) (kept : List Deferred) (ep : Ep)
    (hok : (ep.bookWith 0 none ep.pending kept 0).Ok)
    (hreports : reports → ep.cfg.hasRxCq = true) {r : Ep × List Deferred}
    (hr : rdsProgressDeferredLoop env fuel kept ep = r) :
    Sim lossy reports (ep.bookWith 0 none ep.pending kept 0)
      (r.1.bookWith 0 none r.1.pending r.2 0) := by
  induction fuel generalizing kept ep with
  | zero =>
    rw [← hr]
    exact .refl
  | succ fuel ih =>
    rw [rdsProgressDeferredLoop] at hr
    split at hr
    · rw [← hr]
    rename_i d todo hdeferred
    have hmove : ep.bookWith 0 none ep.pending kept 0 = ({ ep with deferred := todo } : Ep).bookWith
        0 none ep.pending (d ::ₘ (kept : Multiset Deferred)) 0 := by
      have hparked : (kept : Multiset Deferred) + (ep.deferred : Multiset Deferred)
          = d ::ₘ (kept : Multiset Deferred) + (todo : Multiset Deferred) := by
        rw [hdeferred, ← Multiset.cons_coe, Multiset.add_cons, Multiset.cons_add]
      exact congrArg (fun x => { ep.bookWith 0 none ep.pending kept 0 with parked := x }) hparked
    rw [hmove] at hok ⊢
    have hcfg := (Ep.Unmatched.retryDeferred env { ep with deferred := todo } d).cfg
    generalize hretry : rdsRetryDeferred env { ep with deferred := todo } d = s at hr hcfg
    obtain ⟨e, stays⟩ := s
    have hsim : Sim lossy reports (({ ep with deferred := todo } : Ep).bookWith 0 none ep.pending
        (d ::ₘ (kept : Multiset Deferred)) 0) (e.bookWith 0 none e.pending
          (if stays then d ::ₘ (kept : Multiset Deferred) else kept) 0) := by
      cases d with
      | fin peer id => exact retryFin hlossy _ peer id kept hretry
      | read peer cookie remoteOff liov id rts =>
        exact retryRead hlossy { ep with deferred := todo } peer ⟨cookie, remoteOff, liov⟩ id rts
          kept hok hreports hretry
    have hkept : (if stays then d ::ₘ (kept : Multiset Deferred) else kept)
        = ((if stays then kept ++ [d] else kept : List Deferred) : Multiset Deferred) := by
      split
      · exact (coe_concat kept d).symm
      · rfl
    rw [hkept] at hsim
    dsimp only at hr
    split at hr
    · rw [← hr]
      exact hsim
    · exact hsim.trans (ih _ e (Book.Sim.ok hsim hok) (fun hrep => hcfg ▸ hreports hrep) hr)

include hlossy in
theorem progressDeferred (ep : Ep) (hok : (ep.book 0 none).Ok)
    (hreports : reports → ep.cfg.hasRxCq = true) :
    Sim lossy reports (ep.book 0 none) ((rdsProgressDeferred env ep).1.book 0 none) := by
  rw [Ep.book_eq ep 0 none rfl] at hok ⊢
  have hsim := progressDeferredLoop hlossy (2 * ep.deferred.length) [] ep hok hreports rfl
  have hbook : (rdsProgressDeferred env ep).1.book 0 none
      = (rdsProgressDeferredLoop env (2 * ep.deferred.length) [] ep).1.bookWith 0 none
        (rdsProgressDeferredLoop env (2 * ep.deferred.length) [] ep).1.pending
        (rdsProgressDeferredLoop env (2 * ep.deferred.length) [] ep).2 0 := by
    unfold rdsProgressDeferred Ep.bookWith
    rw [Multiset.zero_add, Multiset.coe_add]
    rfl
  rw [hbook]
  exact hsim

end Refine

/-! ## Sending -/

/-- The bytes of a request are those of a request, for the receiver too. -/
theorem ctl?_rtsHdr (dst : SockAddr) (tagged : Bool) (flags tag data id : UInt64)
    (total nseg : ℕ) (segs : List Seg) (hlen : segs.length = nseg)
    (hsize : nseg * rdsSegSize ≤ rdsMaxEagerSize) :
    (rtsHdr tagged flags nseg tag data total id).ctl? (encodeSegs segs) dst = some (.rts id) := by
  have hcnt : (UInt16.ofNat nseg).toNat = nseg := by
    rw [UInt16.toNat_ofNat']
    refine Nat.mod_eq_of_lt ?_
    unfold rdsSegSize rdsMaxEagerSize rdsKernelSegMax rdsHdrSize at hsize
    omega
  have hop : (rtsHdr tagged flags nseg tag data total id).op = rdsOpRts := rfl
  unfold Hdr.ctl?
  rw [if_neg (fun h => h rfl), hop, if_neg (by decide), if_neg (by decide), if_neg]
  · rfl
  · rintro ⟨-, hshort⟩
    have hshort : _ < (UInt16.ofNat nseg).toNat * rdsSegSize := hshort
    rw [hcnt, encodeSegs_length, hlen] at hshort
    exact lt_irrefl _ hshort

/-- A request put together from a header and segments is read as such. -/
theorem ctl?_encode (hdr : Hdr) (segs : List Seg) (dst : SockAddr) :
    ¬ (hdr.encode ++ encodeSegs segs).length < rdsHdrSize
      ∧ (Hdr.decode (hdr.encode ++ encodeSegs segs)).ctl?
          ((hdr.encode ++ encodeSegs segs).drop rdsHdrSize) dst
        = hdr.ctl? (encodeSegs segs) dst := by
  rw [List.length_append, Hdr.encode_length, Hdr.decode_encode,
    List.drop_left' (Hdr.encode_length hdr)]
  exact ⟨Nat.not_lt.mpr (Nat.le_add_right _ _), rfl⟩

theorem Ep.book_withTx (ep : Ep) (hand : Multiset Hand) (cur : Option UInt64) (p : Pending) :
    (ep.withTx p).book hand cur = { ep.book hand cur with
      pending := p ::ₘ (ep.book hand cur).pending
      log := .txOpen p.id ::ₘ (ep.book hand cur).log } := by
  unfold Ep.withTx Ep.book
  dsimp only
  rw [coe_concat, filter_booked_concat ep.trace rfl, coe_concat]

/-- The books after a request went out. -/
theorem Ep.Requests.book {ep ep' : Ep} {dest : SockAddr} {p : Pending} {hdr : Hdr}
    {segs : List Seg} (h : ep.Requests ep' dest p hdr segs) {id : UInt64}
    (hctl : ∀ dst, hdr.ctl? (encodeSegs segs) dst = some (.rts id))
    (hsize : (hdr.encode ++ encodeSegs segs).length < 2 ^ 32) (hand : Multiset Hand)
    (cur : Option UInt64) :
    ep'.book hand cur = { ep.book hand cur with
      pending := p ::ₘ (ep.book hand cur).pending
      sent := .rts id ::ₘ (ep.book hand cur).sent
      log := .txOpen p.id ::ₘ (ep.book hand cur).log } := by
  rcases h with ⟨e, t, hout, h⟩ | ⟨-, e, ⟨writes, w, idx, slot, hout, hw, hloc, hop, hpay, hlen⟩, h⟩
  · set d : Dgram := ⟨e.cfg.self, dest, hdr.encode ++ encodeSegs segs⟩
    have hctld : d.ctl? = some (.rts id) := by
      obtain ⟨hlen, hread⟩ := ctl?_encode hdr segs dest
      exact (if_neg hlen).trans (hread.trans (hctl dest))
    have hwire : (e.wire ++ [d]).filterMap Dgram.ctl?
        = e.wire.filterMap Dgram.ctl? ++ [.rts id] := by
      rw [List.filterMap_append, List.filterMap_cons_some hctld]
      rfl
    rw [h, Ep.book_withTx, ← hout.book]
    unfold Ep.book
    dsimp only
    rw [hwire, coe_concat, Multiset.cons_add]
  · have hctlw : w.ctl? = some (.rts id) := by
      obtain ⟨hmin, hread⟩ := ctl?_encode hdr segs w.dst
      unfold RdmaOp.ctl?
      rw [hloc]
      dsimp only
      rw [hpay, hlen, UInt32.toNat_ofNat', Nat.mod_eq_of_lt hsize, List.take_length,
        if_neg (not_or.mpr ⟨by rw [hop]; decide, hmin⟩), hread]
      exact hctl w.dst
    have hwrites : e.writes.filterMap RdmaOp.ctl? = writes.filterMap RdmaOp.ctl? ++ [.rts id] := by
      rw [hw, List.filterMap_append, List.filterMap_cons_some hctlw]
      rfl
    rw [h, Ep.book_withTx, ← hout.book]
    unfold Ep.book
    dsimp only
    rw [hwrites, coe_concat, Multiset.add_cons]

namespace Refine

open Book

variable {lossy reports : Prop} {env : Env}

theorem draw (ep : Ep) {ep' : Ep} (hout : ep.withId.Outer ep') (hids : ep'.idsGiven < 2 ^ 64) :
    Sim lossy reports (ep.book 0 none) (ep'.book 0 none) := by
  rw [hout.idsGiven] at hids
  rw [hout.book]
  exact .single (.draw hids)

/-- **A message is sent.** -/
theorem genericSend (ep : Ep) (iov : List Iovec) (destAddr tag data : UInt64) (context : ℕ)
    (flags : UInt64) (tagged : Bool)
    (hids : (rdsGenericSend env ep iov destAddr tag data context flags tagged).1.idsGiven
      < 2 ^ 64) :
    Sim lossy reports (ep.book 0 none)
      ((rdsGenericSend env ep iov destAddr tag data context flags tagged).1.book 0 none) := by
  rcases rdsGenericSend_cases env ep iov destAddr tag data context flags tagged rfl
    with hout | ⟨-, hout⟩ | ⟨-, dest, genComp, segs, mrs, cached, -, hlen, hsize, hreq⟩
  · rw [hout.book]
  · exact draw ep hout hids
  · have hdrawn : ep.idsGiven + 1 < 2 ^ 64 := (Ep.Unmatched.requests hreq).idsGiven.trans_lt hids
    rw [hreq.book (fun dst => ctl?_rtsHdr dst tagged flags tag data (succId ep.opId) _ _ segs
      hlen hsize) (by
        rw [List.length_append, Hdr.encode_length, encodeSegs_length, hlen]
        unfold rdsMaxEagerSize rdsKernelSegMax rdsHdrSize at *
        omega)]
    exact .single (.openTx hdrawn rfl rfl)

/-- An operation of the pending operation worked on is accepted. -/
theorem issue (ep : Ep) (t : ℕ) {op : RdmaOp} {p q : Pending} (ps : Multiset Pending)
    (howner : op.Owner p) (hbound : p.segRemaining.toNat + p.segDeferred.toNat + 1 < 2 ^ 32)
    (hsame : p.Same q) (hrem : q.segRemaining = p.segRemaining + 1)
    (hdef : q.segDeferred = p.segDeferred) (herror : q.error = p.error) :
    Rule lossy reports (ep.bookWith 0 (some p.id) (p ::ₘ ps) 0 0)
      (({ ep with tick := t, inflight := ep.inflight ++ [op] } : Ep).bookWith 0 (some p.id)
        (q ::ₘ ps) 0 0) := by
  unfold Ep.bookWith
  rw [Ep.book_inflight]
  exact .issue op rfl rfl howner hbound hsame hrem hdef herror

/-- The parts of a one-sided transfer are issued until one is refused. -/
theorem rmaLoop (dest : SockAddr) (key remoteOff : UInt64) (isWrite : Bool) (iov : List Iovec)
    (total fuel off : ℕ) (ep : Ep) (p : Pending) (ps : Multiset Pending)
    (htype : p.type = .rma)
    (hbound : p.segRemaining.toNat + p.segDeferred.toNat + fuel < 2 ^ 32) {r : Ep × Pending × Ret}
    (hr : rdsRmaLoop env dest key remoteOff isWrite iov total fuel off ep p = r) :
    Sim lossy reports (ep.bookWith 0 (some p.id) (p ::ₘ ps) 0 0)
        (r.1.bookWith 0 (some p.id) (r.2.1 ::ₘ ps) 0 0)
      ∧ p.Same r.2.1 ∧ r.1.pending = ep.pending := by
  induction fuel generalizing off ep p with
  | zero =>
    rw [← hr]
    exact ⟨.refl, .refl p, rfl⟩
  | succ fuel ih =>
    rw [rdsRmaLoop] at hr
    split at hr
    · dsimp only at hr
      split at hr
      · rw [← hr]
        exact ⟨.refl, .refl p, rfl⟩
      generalize hop : rmaOp dest key (remoteOff + UInt64.ofNat off)
        (.iov (rdsIovSlice iov off (min (total - off) rdsKernelSegMax)).1) isWrite p.id = op at hr
      rcases rdsPostRdma_cases env ep op with ⟨-, h⟩ | ⟨e, e', -, -, h⟩ | ⟨-, -, h⟩ | ⟨-, hn, -⟩
      · rw [h] at hr
        rw [← hr]
        exact ⟨.refl, .refl p, rfl⟩
      · rw [h] at hr
        rw [← hr]
        exact ⟨.refl, .refl p, rfl⟩
      · rw [h] at hr
        have howner : op.Owner p := by
          rw [← hop]
          exact ⟨rfl, .inr ⟨htype, rfl⟩⟩
        have hissue : Rule lossy reports _ _ := issue ep (ep.tick + 1) ps howner (by omega)
          (show p.Same { p with segRemaining := p.segRemaining + 1 } from ⟨rfl, rfl, rfl, rfl⟩)
          rfl rfl rfl
        obtain ⟨hsim, hsame, hpending⟩ := ih _ _ { p with segRemaining := p.segRemaining + 1 }
          htype (by
            dsimp only
            rw [toNat_add_one (by omega)]
            omega) hr
        exact ⟨.head hissue hsim, ⟨hsame.id, hsame.type, hsame.peer, hsame.peerId⟩, hpending⟩
      · rw [← hop] at hn
        cases hn
    · rw [← hr]
      exact ⟨.refl, .refl p, rfl⟩

/-- A one-sided transfer starts under a new id. -/
theorem openRma (ep : Ep) (t : ℕ) {p : Pending} (hid : p.id = succId ep.opId)
    (htype : p.type = .rma) (hzero : p.segRemaining = 0) (hids : ep.idsGiven + 1 < 2 ^ 64) :
    Rule lossy reports (ep.book 0 none)
      (({ ep with tick := t, opId := succId ep.opId, idsGiven := ep.idsGiven + 1 } : Ep).bookWith 0
        (some p.id) (p ::ₘ ep.pending) 0 0) := by
  have hrule : Rule lossy reports (ep.book 0 none) _ := .openRma hids rfl hid htype hzero
  unfold Ep.bookWith
  rw [Multiset.zero_add, Multiset.zero_add]
  exact hrule

/-- A transfer that still waits for something is linked. -/
theorem linkRma (ep : Ep) (p : Pending) (htype : p.type = .rma) :
    Rule lossy reports (ep.bookWith 0 (some p.id) (p ::ₘ ep.pending) 0 0)
      ((ep.linkPending p).book 0 none) := by
  rw [Ep.book_eq (ep.linkPending p) 0 none (coe_concat _ _)]
  refine .settle (show _ = p ::ₘ (ep.pending : Multiset Pending) from rfl) rfl (fun hrx => ?_)
  rw [htype] at hrx
  cases hrx

/-- **A one-sided transfer is asked for.** -/
theorem rmaCommon (ep : Ep) (iov : List Iovec) (remoteFi remoteOff key : UInt64)
    (isWrite : Bool) (context : ℕ) (flags : UInt64)
    (hids : (rdsRmaCommon env ep iov remoteFi remoteOff key isWrite context flags).1.idsGiven
      < 2 ^ 64) :
    Sim lossy reports (ep.book 0 none)
      ((rdsRmaCommon env ep iov remoteFi remoteOff key isWrite context flags).1.book 0 none) := by
  unfold rdsRmaCommon at hids ⊢
  dsimp only at hids ⊢
  split
  · exact .refl
  rename_i hmax
  rw [if_neg hmax] at hids
  cases hdest : rdsAvAddr ep.cfg remoteFi with
  | none => exact .refl
  | some dest =>
    rw [hdest] at hids
    dsimp only at hids ⊢
    rcases rdsPendingAlloc_cases env ep .rma context
      (fiRma ||| (if isWrite then fiWrite else fiRead)) with ⟨-, h⟩ | h
    · rw [h]
      exact .refl
    rw [h] at hids ⊢
    dsimp only at hids ⊢
    generalize hp : ({ Pending.blank (succId ep.opId) .rma context
      (fiRma ||| (if isWrite then fiWrite else fiRead)) with
        len := ofiTotalIovLen iov
        addr := remoteFi
        noComp := !hasFlag (ep.cfg.txOpFlags ||| flags) fiCompletion } : Pending) = p at hids ⊢
    have hid : p.id = succId ep.opId := by rw [← hp]; rfl
    have htype : p.type = .rma := by rw [← hp]; rfl
    have hrem : p.segRemaining = 0 := by rw [← hp]; rfl
    have hdef : p.segDeferred = 0 := by rw [← hp]; rfl
    obtain ⟨t, ops, -, hloop, -⟩ := rdsRmaLoop_spec env dest key remoteOff isWrite iov
      (ofiTotalIovLen iov) (ofiTotalIovLen iov) 0 { ep with
        tick := ep.tick + 1, opId := succId ep.opId, idsGiven := ep.idsGiven + 1 } p
    generalize hr : rdsRmaLoop env dest key remoteOff isWrite iov (ofiTotalIovLen iov)
      (ofiTotalIovLen iov) 0 { ep with
        tick := ep.tick + 1, opId := succId ep.opId, idsGiven := ep.idsGiven + 1 } p = r
      at hids hloop ⊢
    obtain ⟨hsim, hsame, hpending⟩ : Sim lossy reports _ _ ∧ _ := rmaLoop dest key remoteOff isWrite
      iov _ _ 0 _ p ep.pending htype (by
        rw [hrem, hdef]
        unfold rdsMaxMsgSize at hmax
        show 0 + 0 + _ < _
        omega) hr
    obtain ⟨e, q, ret⟩ := r
    dsimp only at hids hloop hsim hsame hpending ⊢
    have hend : e.idsGiven < 2 ^ 64 := by
      split at hids
      · exact hids
      split at hids
      · exact hids
      · exact hids
    have hopen : Rule lossy reports (ep.book 0 none) _ :=
      openRma ep (ep.tick + 1) hid htype hrem (by rw [hloop] at hend; exact hend)
    refine .head hopen (hsim.trans ?_)
    rw [← hsame.id, ← hpending]
    have hqtype : q.type = .rma := hsame.type.trans htype
    split
    · rename_i hzero
      rw [Ep.book_eq e 0 none rfl]
      exact .single (.endRma (show _ = q ::ₘ (e.pending : Multiset Pending) from rfl) rfl hqtype
        hzero)
    split
    · exact .single (linkRma e q hqtype)
    · rename_i err
      have hcut : Rule lossy reports (e.bookWith 0 (some q.id) (q ::ₘ e.pending) 0 0)
          (e.bookWith 0 (some q.id) (({ q with error := err } : Pending) ::ₘ e.pending) 0 0) :=
        .cutShort (show _ = q ::ₘ (e.pending : Multiset Pending) from rfl) rfl hqtype
          ⟨rfl, rfl, rfl, rfl⟩ rfl
      exact .head hcut (.single (linkRma e { q with error := err } hqtype))

/-- **An injected write is asked for.** -/
theorem injectWrite (ep : Ep) (buf len : ℕ) (destAddr addr key : UInt64)
    (hids : (rdsInjectWrite env ep buf len destAddr addr key).1.idsGiven < 2 ^ 64) :
    Sim lossy reports (ep.book 0 none)
      ((rdsInjectWrite env ep buf len destAddr addr key).1.book 0 none) := by
  unfold rdsInjectWrite Ep.malloc at hids ⊢
  split
  · exact .refl
  rename_i hlen
  rw [if_neg hlen] at hids
  cases halloc : env.alloc ep.tick with
  | false => exact .refl
  | true =>
    rw [halloc] at hids
    dsimp only at hids ⊢
    cases hdest : rdsAvAddr ep.cfg destAddr with
    | none => exact .refl
    | some dest =>
      rw [hdest] at hids
      dsimp only at hids ⊢
      rcases rdsPendingAlloc_cases env { ep with tick := ep.tick + 1 } .rma 0 (fiRma ||| fiWrite)
        with ⟨-, h⟩ | h
      · rw [h]
        exact .refl
      rw [h] at hids ⊢
      dsimp only at hids ⊢
      generalize hop : rmaOp dest key addr (.bounce (readMem env.mem buf len)) true
        (Pending.blank (succId ep.opId) .rma 0 (fiRma ||| fiWrite)).id = op at hids ⊢
      rcases rdsPostRdma_cases env { ep with
          tick := ep.tick + 1 + 1, opId := succId ep.opId, idsGiven := ep.idsGiven + 1 } op
        with ⟨-, h⟩ | ⟨e, e', -, -, h⟩ | ⟨-, -, h⟩ | ⟨-, hn, -⟩
      · rw [h] at hids ⊢
        exact .single (.draw hids)
      · rw [h] at hids ⊢
        exact .single (.draw hids)
      · rw [h] at hids ⊢
        set p := Pending.blank (succId ep.opId) .rma 0 (fiRma ||| fiWrite)
        have hopen : Rule lossy reports (ep.book 0 none) _ :=
          openRma ep (ep.tick + 1 + 1) (show p.id = succId ep.opId from rfl) rfl rfl hids
        have howner : op.Owner p := by
          rw [← hop]
          exact ⟨rfl, .inr ⟨rfl, rfl⟩⟩
        have hissue : Rule lossy reports _ _ := issue { ep with
            tick := ep.tick + 1 + 1, opId := succId ep.opId, idsGiven := ep.idsGiven + 1 }
          (ep.tick + 1 + 1 + 1) ep.pending howner (show 0 + 0 + 1 < 2 ^ 32 by omega)
          (show p.Same { p with noComp := true, segRemaining := 1 } from ⟨rfl, rfl, rfl, rfl⟩)
          rfl rfl rfl
        have hlink : Rule lossy reports _ _ := linkRma { ep with
            tick := ep.tick + 1 + 1 + 1, opId := succId ep.opId, idsGiven := ep.idsGiven + 1
            inflight := ep.inflight ++ [op] } { p with noComp := true, segRemaining := 1 } rfl
        exact .head hopen (.head hissue (.single hlink))
      · rw [← hop] at hn
        cases hn

end Refine

/-! ## Every action -/

/-- What is in hand when a slot is taken out of a ring. -/
def Hand.ofSlot (sa : SockAddr) (slot : RingSlot) : Multiset Hand :=
  if slot.op = rdsOpEager ∨ slot.len.toNat < rdsHdrSize then 0
  else Hand.inbound (Hdr.decode (slot.payload.take slot.len.toNat))
    ((slot.payload.take slot.len.toNat).drop rdsHdrSize) sa

/-- What an action puts in the endpoint's hand: the datagram or the slot it takes
in. -/
def Ep.incoming (ep : Ep) : EpAct → Multiset Hand
  | .recv _ src bytes =>
    if bytes.length < rdsHdrSize then 0
    else Hand.inbound (Hdr.decode bytes) (bytes.drop rdsHdrSize) src
  | .poll _ addr =>
    match rdsPeerFind ep addr with
    | none => 0
    | some p =>
      match p.nextSlot ep.cfg.geom.slots with
      | none => 0
      | some slot => Hand.ofSlot p.sa slot
  | _ => 0

/-- The environment an action meets. -/
def EpAct.env? : EpAct → Option Env
  | .send env .. | .inject env .. | .postRecv env .. | .rma env .. | .injectWrite env ..
  | .recv env .. | .notify env .. | .retry env | .poll env _ | .flush env _ => some env
  | _ => none

namespace Refine

open Book

variable {lossy reports : Prop}

theorem ringDeliver {env : Env} (hlossy : env.Lossy → lossy) (ep : Ep) (sa : SockAddr)
    (addr : UInt64) (slot : RingSlot) (hok : (ep.book 0 none).Ok)
    (hreports : reports → ep.cfg.hasRxCq = true)
    (hids : (rdsRingDeliver env ep sa addr slot).idsGiven < 2 ^ 64) :
    Sim lossy reports (ep.book (Hand.ofSlot sa slot) none)
      ((rdsRingDeliver env ep sa addr slot).book 0 none) := by
  unfold rdsRingDeliver at hids ⊢
  unfold Hand.ofSlot
  dsimp only at hids ⊢
  by_cases heager : slot.op = rdsOpEager
  · rw [if_pos heager] at hids ⊢
    rw [if_pos (.inl heager)]
    exact handleInbound hlossy ep _ _ sa addr hok hreports hids
  · rw [if_neg heager] at hids ⊢
    by_cases hshort : slot.len.toNat < rdsHdrSize
    · rw [if_pos hshort, if_pos (.inr hshort)]
    · rw [if_neg hshort] at hids ⊢
      rw [if_neg (not_or.mpr ⟨heager, hshort⟩)]
      exact handleInbound hlossy ep _ _ sa addr hok hreports hids

theorem ringPollSlot {env : Env} (hlossy : env.Lossy → lossy) (ep : Ep) (addr : UInt64)
    (hok : (ep.book 0 none).Ok) (hreports : reports → ep.cfg.hasRxCq = true)
    (hids : ((rdsRingPollSlot env ep addr).getD ep).idsGiven < 2 ^ 64) :
    Sim lossy reports (ep.book (ep.incoming (.poll env addr)) none)
      (((rdsRingPollSlot env ep addr).getD ep).book 0 none) := by
  unfold Ep.incoming
  dsimp only
  rcases rdsRingPollSlot_outer env ep addr with ⟨h, hnone⟩ | ⟨p, slot, e, hfind, hslot, h, hnext⟩
  · rw [h]
    cases hfind : rdsPeerFind ep addr with
    | none => exact .refl
    | some p =>
      dsimp only
      rw [hnone p hfind]
      exact .refl
  · rw [h] at hids ⊢
    rw [hfind]
    dsimp only at hids ⊢
    rw [hslot]
    dsimp only
    have hset := ep.outer_setPeer (p.absorbAck slot.ack)
    have hdeliver : _ → Sim lossy reports _ _ := ringDeliver hlossy
      (ep.setPeer (p.absorbAck slot.ack)) p.sa p.addr slot (hset.book 0 none ▸ hok) hreports
    rw [hset.book, ← hnext.book] at hdeliver
    exact hdeliver (hnext.idsGiven ▸ hids)

/-- **Every action of an endpoint is a sequence of rules**, if its books balance and
its ids have not wrapped. -/
theorem act (ep : Ep) (a : EpAct) (hadm : ep.Admits a)
    (hlossy : ∀ env, a.env? = some env → env.Lossy → lossy) (hok : (ep.book 0 none).Ok)
    (hreports : reports → ep.cfg.hasRxCq = true)
    (hsegs : ∀ k, ∀ m ∈ ep.unexp k, m.segs.length < 2 ^ 16)
    (hids : (ep.act a).idsGiven < 2 ^ 64) :
    Sim lossy reports (ep.book (ep.incoming a) none) ((ep.act a).book 0 none) := by
  cases a with
  | send env iov destAddr tag data context flags tagged =>
    exact genericSend ep iov destAddr tag data context flags tagged hids
  | inject env buf len destAddr tag tagged =>
    rw [Ep.act, (rdsGenericInject_outer env ep buf len destAddr tag tagged).book]
    exact .refl
  | postRecv env iov addr tag ignore context flags tagged =>
    exact postRecv (hlossy env rfl) ep iov addr tag ignore context flags tagged hreports hsegs hids
  | cancel context =>
    have hbook : (rdsEpCancel ep context).1.book 0 none = ep.book 0 none :=
      rdsEpCancel_elim rfl (fun _ _ _ => rfl)
    rw [Ep.act, hbook]
    exact .refl
  | rma env iov remoteFi remoteOff key isWrite context flags =>
    exact rmaCommon ep iov remoteFi remoteOff key isWrite context flags hids
  | injectWrite env buf len destAddr addr key =>
    exact injectWrite ep buf len destAddr addr key hids
  | recv env src bytes =>
    rw [Ep.act] at hids ⊢
    unfold rdsRecvDgram at hids ⊢
    unfold Ep.incoming
    dsimp only at hids ⊢
    by_cases hshort : bytes.length < rdsHdrSize
    · rw [if_pos hshort, if_pos hshort]
    · rw [if_neg hshort] at hids ⊢
      rw [if_neg hshort]
      exact handleInbound (hlossy env rfl) ep _ _ _ _ hok hreports hids
  | notify env op status => exact notify (hlossy env rfl) ep op status hadm hok hreports
  | retry env => exact progressDeferred (hlossy env rfl) ep hok hreports
  | poll env addr => exact ringPollSlot (hlossy env rfl) ep addr hok hreports hids
  | flush env addr =>
    rw [Ep.act, (rdsRingFlushCredit_outer env ep addr).book]
    exact .refl
  | landSlot addr idx slot => exact .refl
  | landCredit addr value => exact .refl
  | shareDomain domain => exact .refl

end Refine
