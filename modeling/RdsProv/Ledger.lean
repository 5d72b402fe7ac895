import RdsProv.Matching
import Mathlib.Algebra.Order.Group.Multiset
import Mathlib.Data.Multiset.Range

/-!
# The ledger of receives and messages

A receive is posted, taken by a message or cancelled; a message is buffered until a
receive takes it. A request and the receive it meets stay together in a pending
operation until the last read is done. On the way they go through six lists of the
endpoint, and none of these says which receives and messages there ever were.

The ledger does. It numbers receives by posting and messages by arrival, keeps with
each pending operation the message and the receive it stands for (`Bond`), and
keeps what was retired, by a message or by a cancel, in order (`Retired`). A ledger
fits an endpoint if every number is in one place, the operations are those pending,
the pairs are those that were matched, and the completion queue is what the retired
receives reported, one after the other (`Ledger.Fits`).

Each call moves a receive or a message from one place to another, or a whole pair;
so a fitting ledger is kept by every call, and what it has retired stays retired.
-/

/-! ## What happens to the receiving side -/

/-- What can happen to the receiving side of an endpoint. A message arrives by the
socket or by the ring; `arrive` is what either hands to the matching engine. -/
inductive RxAct where
  | post (env : Env) (iov : List Iovec) (addr tag ignore : UInt64) (context : ℕ)
      (flags : UInt64) (tagged : Bool)
  | arrive (env : Env) (hdr : Hdr) (payload : List UInt8) (src : SockAddr) (srcFi : UInt64)
  | cancel (context : ℕ)
  | notify (env : Env) (token : UInt64) (status : ℤ)
  | retry (env : Env)

/-- One of them happens. -/
def Ep.rxAct (ep : Ep) : RxAct → Ep
  | .post env iov addr tag ignore context flags tagged =>
    (rdsPostRecv env ep iov addr tag ignore context flags tagged).1
  | .arrive env hdr payload src srcFi => rdsHandleInbound env ep hdr payload src srcFi
  | .cancel context => (rdsEpCancel ep context).1
  | .notify env token status => rdsHandleRdmaNotify env ep token status
  | .retry env => (rdsProgressDeferred env ep).1

/-- Messages are well formed, and receives and messages find memory. -/
def RxAct.Fine : RxAct → Prop
  | .post env .. => env.AllocOk
  | .arrive env hdr payload _ _ => env.AllocOk ∧ hdr.magic = rdsHdrMagic
      ∧ (hdr.op = rdsOpEager
        ∨ (hdr.op = rdsOpRts ∧ hdr.segCnt.toNat * rdsSegSize ≤ payload.length))
  | .cancel _ | .notify .. | .retry _ => True

/-! ## Entries of the ledger -/

/-- An operation has gone on: its counters may have changed, and an error stays one. -/
structure Pending.Advances (p q : Pending) : Prop where
  eq : q = { p with
    error := q.error, segRemaining := q.segRemaining, segDeferred := q.segDeferred
    segTotal := q.segTotal }
  error : p.error ≠ 0 → q.error ≠ 0

namespace Pending.Advances

variable {p q r : Pending}

theorem refl (p : Pending) : p.Advances p := ⟨rfl, fun h => h⟩

theorem trans (h : p.Advances q) (h' : q.Advances r) : p.Advances r where
  eq := by
    rw [h'.eq, h.eq]
  error := h'.error ∘ h.error

/-- The counters move. -/
theorem counters (p : Pending) (remaining deferred total : UInt32) :
    p.Advances { p with
      segRemaining := remaining, segDeferred := deferred, segTotal := total } := ⟨rfl, fun h => h⟩

theorem fail (p : Pending) (e : ℕ) : p.Advances (p.fail e) := by
  unfold Pending.fail
  split
  · rename_i hzero
    exact ⟨rfl, fun h => absurd hzero h⟩
  · exact refl p

theorem id_eq (h : p.Advances q) : q.id = p.id := by
  rw [h.eq]

end Pending.Advances

/-- **A message and a receive bound together by a pending operation**, which is as
`rds_start_rndzv_read` filled it in but for its counters and its error. -/
structure Bond (cfg : EpCfg) where
  message : Unexp
  receive : RxEntry
  op : Pending
  filled : ((Pending.blank op.id .rndzvRx receive.context (rdsRxFlags message.hdr)).ofRequest
    receive message.hdr message.src message.addr cfg.rxOpFlags).Advances op

namespace Bond

variable {cfg : EpCfg}

/-- The bond when its operation has gone on. -/
def advance (b : Bond cfg) {q : Pending} (h : b.op.Advances q) : Bond cfg where
  message := b.message
  receive := b.receive
  op := q
  filled := by
    rw [h.id_eq]
    exact b.filled.trans h

def pair (b : Bond cfg) : Unexp × RxEntry := (b.message, b.receive)

theorem type (b : Bond cfg) : b.op.type = .rndzvRx := by
  rw [b.filled.eq]
  rfl

/-- The operation suppresses its completion if none was asked for. -/
theorem noComp (b : Bond cfg) :
    b.op.noComp = !hasFlag (b.receive.flags ||| cfg.rxOpFlags) fiCompletion := by
  rw [b.filled.eq]
  rfl

end Bond

/-- **How a receive was retired.** -/
inductive Retired (cfg : EpCfg) where
  | cancelled (rx : RxEntry)
  | eager (m : Unexp) (rx : RxEntry)
  | rendezvous (b : Bond cfg)

namespace Retired

variable {cfg : EpCfg}

def receive : Retired cfg → RxEntry
  | .cancelled rx => rx
  | .eager _ rx => rx
  | .rendezvous b => b.receive

/-- The message and the receive it retired, unless that was cancelled. -/
def pair? : Retired cfg → Option (Unexp × RxEntry)
  | .cancelled _ => none
  | .eager m rx => some (m, rx)
  | .rendezvous b => some b.pair

def isCancelled : Retired cfg → Bool
  | .cancelled _ => true
  | .eager .. | .rendezvous _ => false

/-- The message did not fit, or the transfer failed. -/
def failed : Retired cfg → Bool
  | .cancelled _ => false
  | .eager m rx => rx.totalLen < m.data.length
  | .rendezvous b => b.op.error ≠ 0

/-- A completion was asked for, with the receive or for the endpoint. -/
def reports (t : Retired cfg) : Bool := hasFlag (t.receive.flags ||| cfg.rxOpFlags) fiCompletion

/-- What was written to the completion queue. -/
def entries : Retired cfg → List CqEntry
  | .cancelled rx => if cfg.hasRxCq then [cancelEntry rx rx.context] else []
  | .eager m rx => m.entries cfg rx
  | .rendezvous b => b.op.entries cfg

/-- **A retired receive reported once** if it was cancelled, failed or was asked to
report, and otherwise not at all. -/
theorem length_entries (hcq : cfg.hasRxCq = true) (t : Retired cfg) :
    t.entries.length = if t.isCancelled ∨ t.failed ∨ t.reports then 1 else 0 := by
  have hone : ∀ context flags len data tag src err,
      (rxEntries cfg context flags len data tag src err).length = 1 := by
    intro context flags len data tag src err
    rw [rxEntries, if_pos hcq]
    rfl
  cases t with
  | cancelled rx =>
    rw [entries, if_pos hcq]
    rfl
  | eager m rx =>
    have herr : ((if rx.totalLen < m.data.length then fiEtrunc.val else 0) ≠ 0)
        ↔ rx.totalLen < m.data.length := by
      split
      · simp [*]
      · simp [*]
    rw [entries, Unexp.entries, apply_ite List.length, hone]
    refine if_congr ?_ rfl rfl
    rw [herr]
    simp [isCancelled, failed, reports, receive, or_comm]
  | rendezvous b =>
    rw [entries, Pending.entries, apply_ite List.length, hone]
    refine if_congr ?_ rfl rfl
    rw [b.noComp]
    simp [isCancelled, failed, reports, receive, or_comm]

end Retired

/-- The ledger: the bonds of the pending operations, and what was retired, in order. -/
structure Ledger (cfg : EpCfg) where
  opened : List (Bond cfg)
  retired : List (Retired cfg)

/-- The posted receives, of both kinds. -/
def Ep.allPosted (ep : Ep) : Multiset RxEntry := ↑(ep.posted false) + ↑(ep.posted true)

/-- The unexpected messages, of both kinds. -/
def Ep.allUnexp (ep : Ep) : Multiset Unexp := ↑(ep.unexp false) + ↑(ep.unexp true)

section

variable {cfg : EpCfg} (L : Ledger cfg) (inHand : Multiset (Unexp × RxEntry)) (ep : Ep)

/-- The pairs that were matched and not yet retired: those bound by a pending
operation, and one that may be in hand, not yet delivered. -/
def Ledger.live : Multiset (Unexp × RxEntry) :=
  (L.opened : Multiset (Bond cfg)).map Bond.pair + inHand

/-- Every place a receive can be in: still posted, matched with a message, or
retired. -/
def Ledger.receives : Multiset RxEntry :=
  ep.allPosted + (L.live inHand).map Prod.snd
    + (L.retired : Multiset (Retired cfg)).map Retired.receive

/-- Every place a message can be in: unexpected, matched with a receive, or consumed
by a receive that was retired. -/
def Ledger.messages : Multiset Unexp :=
  ep.allUnexp + (L.live inHand).map Prod.fst
    + ((L.retired : Multiset (Retired cfg)).filterMap Retired.pair?).map Prod.fst

/-- **The ledger fits the endpoint**: every receive posted so far and every message
arrived so far is in one place. -/
structure Ledger.Fits : Prop where
  config : ep.cfg = cfg
  receives : (L.receives inHand ep).map RxEntry.no = Multiset.range ep.postings
  messages : (L.messages inHand ep).map Unexp.no = Multiset.range ep.arrivals
  /-- The pairs are those that were matched. -/
  pairings : L.live inHand + (L.retired : Multiset (Retired cfg)).filterMap Retired.pair?
    = ↑ep.pairings
  /-- Every pending operation is the bond of one pair. -/
  pending : L.opened.map Bond.op = ep.pending
  /-- The completion queue is what the retired receives reported. -/
  rxCq : ep.rxCq = L.retired.flatMap Retired.entries

end

/-! ## What leaves the ledger alone -/

/-- Nothing of the ledger changes but that completions are reported. -/
structure Ep.Reports (ep : Ep) (cqes : List CqEntry) (ep' : Ep) : Prop where
  cfg : ep'.cfg = ep.cfg
  posted : ep'.posted = ep.posted
  unexp : ep'.unexp = ep.unexp
  pending : ep'.pending = ep.pending
  postings : ep'.postings = ep.postings
  arrivals : ep'.arrivals = ep.arrivals
  pairings : ep'.pairings = ep.pairings
  rxCq : ep'.rxCq = ep.rxCq ++ cqes

namespace Ep.Reports

theorem trans {e₁ e₂ e₃ : Ep} {a b : List CqEntry} (h : e₁.Reports a e₂) (h' : e₂.Reports b e₃) :
    e₁.Reports (a ++ b) e₃ where
  cfg := h'.cfg.trans h.cfg
  posted := h'.posted.trans h.posted
  unexp := h'.unexp.trans h.unexp
  pending := h'.pending.trans h.pending
  postings := h'.postings.trans h.postings
  arrivals := h'.arrivals.trans h.arrivals
  pairings := h'.pairings.trans h.pairings
  rxCq := by rw [h'.rxCq, h.rxCq, List.append_assoc]

/-- Changes elsewhere. -/
theorem of_eq {ep ep' : Ep} (h : ep' = { ep with
      deferred := ep'.deferred, tick := ep'.tick, wire := ep'.wire, inflight := ep'.inflight
      writes := ep'.writes, placed := ep'.placed, opId := ep'.opId, idsGiven := ep'.idsGiven }) :
    ep.Reports [] ep' := by
  rw [h]
  exact ⟨rfl, rfl, rfl, rfl, rfl, rfl, rfl, (List.append_nil _).symm⟩

/-- An event other than a pairing. -/
theorem log (ep : Ep) {e : Event} (h : e.pairing? = none) : ep.Reports [] (ep.log e) :=
  ⟨rfl, rfl, rfl, rfl, rfl, rfl, (Ep.Unmatched.log ep h).pairings, (List.append_nil _).symm⟩

theorem sendFin (env : Env) (ep : Ep) (peer : SockAddr) (id : UInt64) :
    ep.Reports [] (rdsSendFin env ep peer id) := by
  obtain h | h | ⟨-, t, h⟩ := rdsSendFin_cases env ep peer id
  · rw [h]
    exact of_eq rfl
  · rw [h]
    exact of_eq rfl
  · rw [h]
    have htick : ep.Reports [] { ep with tick := t } := of_eq rfl
    exact htick.trans (log { ep with tick := t } (e := .finLost peer id) rfl)

/-- Finalizing reports what the operation reports. -/
theorem finalize (env : Env) (ep : Ep) (p : Pending) :
    ep.Reports (p.entries ep.cfg) (rdsRndzvRxFinalize env ep p) := by
  have hfin := sendFin env ep p.peer p.peerId
  rw [rdsRndzvRxFinalize_eq env ep p rfl]
  generalize rdsSendFin env ep p.peer p.peerId = e at hfin
  rw [← hfin.cfg]
  have hcq : e.Reports (p.entries e.cfg) { e with rxCq := e.rxCq ++ p.entries e.cfg } :=
    ⟨rfl, rfl, rfl, rfl, rfl, rfl, rfl, rfl⟩
  have hdone := (hfin.trans hcq).trans (log _ (e := .rxDone p.id (p.entries e.cfg)) rfl)
  rw [List.append_nil] at hdone
  exact hdone

/-- Issuing reads moves the counters of their operation. -/
theorem foldl_issueRead (env : Env) (peer : SockAddr) (rts : UInt64) (rs : List ReadReq)
    (s : Ep × Pending) : s.1.Reports [] (rs.foldl (rdsIssueRead env peer rts) s).1
      ∧ s.2.Advances (rs.foldl (rdsIssueRead env peer rts) s).2 := by
  refine rdsIssueReads_keeps (P := fun e p => s.1.Reports [] e ∧ s.2.Advances p)
    (fun _ _ _ _ h => ⟨h.1.trans (of_eq rfl), h.2.trans (.counters _ _ _ _)⟩)
    (fun _ _ _ _ h => ⟨h.1.trans (of_eq rfl), h.2.trans (.counters _ _ _ _)⟩)
    (fun e p t _ h => ?_) rs ⟨of_eq rfl, .refl s.2⟩
  have htick : e.Reports [] { e with tick := t } := of_eq rfl
  exact ⟨(h.1.trans htick).trans (log _ (e := .readFail p.id) rfl), h.2.trans (.fail p _)⟩

end Ep.Reports

/-! ## Moves -/

namespace Ep

theorem allPosted_eq (ep : Ep) (k : Bool) :
    ep.allPosted = ↑(ep.posted k) + ↑(ep.posted !k) := by
  cases k with
  | false => rfl
  | true => exact add_comm (↑(ep.posted false) : Multiset RxEntry) _

theorem allUnexp_eq (ep : Ep) (k : Bool) :
    ep.allUnexp = ↑(ep.unexp k) + ↑(ep.unexp !k) := by
  cases k with
  | false => rfl
  | true => exact add_comm (↑(ep.unexp false) : Multiset Unexp) _

/-- The posted receives when one list was changed. -/
theorem allPosted_update (ep : Ep) {ep' : Ep} (k : Bool) {l : List RxEntry}
    (h : ep'.posted = Function.update ep.posted k l) :
    ep'.allPosted = ↑l + ↑(ep.posted !k) := by
  rw [ep'.allPosted_eq k, h, Function.update_self, Function.update_of_ne (by simp)]

theorem allUnexp_update (ep : Ep) {ep' : Ep} (k : Bool) {l : List Unexp}
    (h : ep'.unexp = Function.update ep.unexp k l) :
    ep'.allUnexp = ↑l + ↑(ep.unexp !k) := by
  rw [ep'.allUnexp_eq k, h, Function.update_self, Function.update_of_ne (by simp)]

end Ep

/-- What a search finds and unlinks. -/
theorem List.coe_eraseP {α : Type} {f : α → Bool} {l : List α} {a : α}
    (h : l.find? f = some a) : (↑l : Multiset α) = {a} + ↑(l.eraseP f) := by
  obtain ⟨l₁, l₂, rfl, -, -, herase, -⟩ := List.find?_split h
  rw [herase]
  exact Multiset.coe_eq_coe.mpr List.perm_middle

namespace Ledger

variable {cfg : EpCfg} {L : Ledger cfg} {hand : Multiset (Unexp × RxEntry)} {ep ep' : Ep}

/-- A receive is retired. -/
def retire (L : Ledger cfg) (t : Retired cfg) : Ledger cfg :=
  { L with retired := L.retired ++ [t] }

theorem coe_retire (L : Ledger cfg) (t : Retired cfg) :
    (↑(L.retire t).retired : Multiset (Retired cfg)) = t ::ₘ ↑L.retired :=
  Multiset.coe_eq_coe.mpr (List.perm_append_singleton t L.retired)

theorem live_inHand (L : Ledger cfg) (hand : Multiset (Unexp × RxEntry)) :
    L.live hand = L.live 0 + hand := by
  unfold live
  rw [add_zero]

namespace Fits

theorem init (cfg : EpCfg) (domain : Domain) :
    (⟨[], []⟩ : Ledger cfg).Fits 0 (Ep.init cfg domain) :=
  ⟨rfl, rfl, rfl, rfl, rfl, rfl⟩

/-- Elsewhere, things may change. -/
theorem reports (h : L.Fits hand ep) (hr : ep.Reports [] ep') : L.Fits hand ep' where
  config := hr.cfg.trans h.config
  receives := by
    unfold Ledger.receives Ep.allPosted
    rw [hr.posted, hr.postings]
    exact h.receives
  messages := by
    unfold Ledger.messages Ep.allUnexp
    rw [hr.unexp, hr.arrivals]
    exact h.messages
  pending := h.pending.trans hr.pending.symm
  pairings := by
    rw [hr.pairings]
    exact h.pairings
  rxCq := by
    rw [hr.rxCq, List.append_nil]
    exact h.rxCq

/-- **The pair in hand is retired** and reports. -/
theorem retire {m : Unexp} {rx : RxEntry} (h : L.Fits {(m, rx)} ep) {t : Retired cfg}
    (hpair : t.pair? = some (m, rx)) (hreceive : t.receive = rx)
    (hr : ep.Reports t.entries ep') : (L.retire t).Fits 0 ep' where
  config := hr.cfg.trans h.config
  receives := by
    rw [hr.postings, ← h.receives]
    refine congrArg (Multiset.map RxEntry.no) ?_
    unfold Ledger.receives Ep.allPosted
    rw [hr.posted, coe_retire, Multiset.map_cons, hreceive, live_inHand L {(m, rx)},
      Multiset.map_add, Multiset.map_singleton, ← Multiset.singleton_add]
    show _ + (L.live 0).map Prod.snd + _ = _
    ac_rfl
  messages := by
    rw [hr.arrivals, ← h.messages]
    refine congrArg (Multiset.map Unexp.no) ?_
    unfold Ledger.messages Ep.allUnexp
    rw [hr.unexp, coe_retire, Multiset.filterMap_cons_some _ _ _ hpair, Multiset.map_cons,
      live_inHand L {(m, rx)}, Multiset.map_add, Multiset.map_singleton, ← Multiset.singleton_add]
    show _ + (L.live 0).map Prod.fst + _ = _
    ac_rfl
  pending := h.pending.trans hr.pending.symm
  pairings := by
    rw [hr.pairings, ← h.pairings, coe_retire, Multiset.filterMap_cons_some _ _ _ hpair,
      live_inHand L {(m, rx)}, ← Multiset.singleton_add]
    show L.live 0 + _ = _
    ac_rfl
  rxCq := by
    rw [hr.rxCq, h.rxCq, Ledger.retire, List.flatMap_append, List.flatMap_singleton]

/-- **The pending operations change** and the pairs that are matched do not. -/
theorem rebind {hand' : Multiset (Unexp × RxEntry)} (h : L.Fits hand ep)
    {opened : List (Bond cfg)}
    (hlive : (⟨opened, L.retired⟩ : Ledger cfg).live hand' = L.live hand) :
    (⟨opened, L.retired⟩ : Ledger cfg).Fits hand'
      { ep with pending := opened.map Bond.op } where
  config := h.config
  receives := by
    unfold Ledger.receives
    rw [hlive]
    exact h.receives
  messages := by
    unfold Ledger.messages
    rw [hlive]
    exact h.messages
  pairings := by
    rw [hlive]
    exact h.pairings
  pending := rfl
  rxCq := h.rxCq

/-- An operation is opened for the pair in hand. -/
theorem bind {b : Bond cfg} (h : L.Fits {b.pair} ep) :
    (⟨L.opened ++ [b], L.retired⟩ : Ledger cfg).Fits 0 (ep.linkPending b.op) := by
  have hlive : (⟨L.opened ++ [b], L.retired⟩ : Ledger cfg).live 0 = L.live {b.pair} := by
    unfold Ledger.live
    rw [add_zero, ← Multiset.coe_add, Multiset.map_add]
    rfl
  have hrebind := h.rebind hlive
  rw [List.map_append, h.pending] at hrebind
  exact hrebind

/-- A pair is taken in hand, and its operation unlinked. -/
theorem unbind {o₁ o₂ : List (Bond cfg)} {b : Bond cfg} (h : L.Fits 0 ep)
    (hopened : L.opened = o₁ ++ b :: o₂) :
    (⟨o₁ ++ o₂, L.retired⟩ : Ledger cfg).Fits {b.pair}
      { ep with pending := (o₁ ++ o₂).map Bond.op } := by
  refine h.rebind ?_
  have hmiddle : (L.opened : Multiset (Bond cfg)) = b ::ₘ ↑(o₁ ++ o₂) := by
    rw [hopened]
    exact Multiset.coe_eq_coe.mpr List.perm_middle
  unfold Ledger.live
  rw [hmiddle, Multiset.map_cons, add_zero, ← Multiset.singleton_add]
  exact add_comm _ _

/-- The operation of a pair goes on. -/
theorem advance {o₁ o₂ : List (Bond cfg)} {b : Bond cfg} (h : L.Fits hand ep)
    (hopened : L.opened = o₁ ++ b :: o₂) {q : Pending} (hq : b.op.Advances q) :
    (⟨o₁ ++ b.advance hq :: o₂, L.retired⟩ : Ledger cfg).Fits hand
      { ep with pending := (o₁ ++ b.advance hq :: o₂).map Bond.op } := by
  refine h.rebind ?_
  unfold Ledger.live
  rw [hopened, Multiset.map_coe, Multiset.map_coe, List.map_append, List.map_append, List.map_cons,
    List.map_cons]
  rfl

/-- A search finds the operation of a pair. -/
theorem find (h : L.Fits hand ep) {id : UInt64} {p : Pending}
    (hfind : rdsPendingFind ep id = some p) :
    ∃ o₁ b o₂, L.opened = o₁ ++ b :: o₂ ∧ b.op = p ∧ p.id = id
      ∧ ep.pending.eraseP (·.id == id) = (o₁ ++ o₂).map Bond.op
      ∧ ∀ q, ep.pending.modifyFirst (·.id == id) (fun _ => q)
        = o₁.map Bond.op ++ q :: o₂.map Bond.op := by
  obtain ⟨l₁, l₂, hl, -, hid, herase, hmod⟩ := List.find?_split hfind
  rw [← h.pending] at hl
  obtain ⟨o₁, o, hopened, rfl, ho⟩ := List.map_eq_append_iff.mp hl
  obtain ⟨b, o₂, rfl, rfl, rfl⟩ := List.map_eq_cons_iff.mp ho
  refine ⟨o₁, b, o₂, hopened, rfl, by simpa using hid, ?_, fun q => hmod _⟩
  rw [herase, List.map_append]

end Fits

/-- A ledger with at least these retirements fits. -/
def Leads (L : Ledger cfg) (ep : Ep) : Prop :=
  ∃ L' : Ledger cfg, L.retired <+: L'.retired ∧ L'.Fits 0 ep

theorem Fits.leads (h : L.Fits 0 ep) : L.Leads ep := ⟨L, List.prefix_rfl, h⟩

/-- What a fitting ledger leads to. -/
theorem Leads.trans (h : L.Leads ep) (hstep : ∀ L' : Ledger cfg, L'.Fits 0 ep → L'.Leads ep') :
    L.Leads ep' := by
  obtain ⟨L₁, hprefix, hfits⟩ := h
  obtain ⟨L₂, hprefix', hfits'⟩ := hstep L₁ hfits
  exact ⟨L₂, hprefix.trans hprefix', hfits'⟩

namespace Fits

/-- A pair in hand is retired. -/
theorem leads_retire {m : Unexp} {rx : RxEntry} (h : L.Fits {(m, rx)} ep) {t : Retired cfg}
    (hpair : t.pair? = some (m, rx)) (hreceive : t.receive = rx)
    (hr : ep.Reports t.entries ep') : L.Leads ep' :=
  ⟨L.retire t, List.prefix_append _ _, h.retire hpair hreceive hr⟩

/-- An operation is written back. -/
theorem store (h : L.Fits 0 ep) {id : UInt64} {p q : Pending}
    (hfind : rdsPendingFind ep id = some p) (hq : p.Advances q) :
    L.Leads (ep.storePending q) := by
  obtain ⟨o₁, b, o₂, hopened, rfl, hid, -, hmod⟩ := h.find hfind
  have hadvance := h.advance hopened hq
  rw [List.map_append, List.map_cons, show (b.advance hq).op = q from rfl, ← hmod q, ← hid,
    ← hq.id_eq] at hadvance
  exact ⟨⟨o₁ ++ b.advance hq :: o₂, L.retired⟩, List.prefix_rfl, hadvance⟩

/-- An operation is finalized. -/
theorem finish (env : Env) (h : L.Fits 0 ep) {id : UInt64} {p q : Pending}
    (hfind : rdsPendingFind ep id = some p) (hq : p.Advances q) :
    L.Leads ((rdsRndzvRxFinalize env ep q).unlinkPending q.id) := by
  obtain ⟨o₁, b, o₂, hopened, rfl, hid, herase, -⟩ := h.find hfind
  have hunbind := (h.advance hopened hq).unbind rfl
  have hfinal := Ep.Reports.finalize env ep q
  refine hunbind.leads_retire (t := .rendezvous (b.advance hq)) rfl rfl ?_
  refine ⟨hfinal.cfg, hfinal.posted, hfinal.unexp, ?_, hfinal.postings, hfinal.arrivals,
    hfinal.pairings, ?_⟩
  · rw [Ep.unlinkPending, hfinal.pending, hq.id_eq, hid]
    exact herase
  · refine hfinal.rxCq.trans ?_
    rw [h.config]
    rfl

/-! ## Matching and delivery -/

/-- **A matched pair is delivered**: the receive is retired, or bound to the request
by an operation. -/
theorem deliver {env : Env} (halloc : env.AllocOk) {m : Unexp} {rx : RxEntry}
    (h : L.Fits {(m, rx)} (ep.log (.paired m rx))) : L.Leads (rdsDeliver env ep rx m) := by
  by_cases heager : m.hdr.op = rdsOpEager
  · rw [rdsDeliver_eager env ep rx heager]
    refine h.leads_retire (t := .eager m rx) rfl rfl ?_
    rw [Retired.entries, ← h.config]
    exact ⟨rfl, rfl, rfl, rfl, rfl, rfl, rfl, rfl⟩
  · rw [rdsDeliver_rendezvous env ep rx heager]
    generalize ep.log (.paired m rx) = e at h
    refine rdsStartRndzvRead_elim (fun hnone => ?_) (fun _ e' q hreads => ?_)
    · rw [halloc] at hnone
      cases hnone
    have hopen : e.Reports [] (e.rxOpened rx m.hdr) :=
      (Ep.Reports.of_eq rfl).trans (Ep.Reports.log { e.withId with tick := e.tick + 1 } rfl)
    obtain ⟨hissue, hadvances⟩ := Ep.Reports.foldl_issueRead env m.src m.hdr.id
      (rndzvReads rx.iov (min m.hdr.size.toNat rx.totalLen) 0 m.segs)
      (e.rxOpened rx m.hdr, e.rxOperation rx m.hdr m.src m.addr)
    rw [hreads] at hissue hadvances
    have hfits : L.Fits {(m, rx)} e' := h.reports (hopen.trans hissue)
    -- the operation that binds the pair
    let b : Bond cfg := ⟨m, rx, q, by
      rw [hadvances.id_eq, ← h.config]
      exact hadvances⟩
    split
    · refine hfits.leads_retire (t := .rendezvous b) rfl rfl ?_
      have hfinal := Ep.Reports.finalize env e' q
      rw [hfits.config] at hfinal
      exact hfinal
    · exact ⟨⟨L.opened ++ [b], L.retired⟩, List.prefix_rfl, hfits.bind⟩

/-- A message that a posted receive takes is in hand with it. -/
theorem take_posted {k : Bool} {f : RxEntry → Bool} {m : Unexp} {rx : RxEntry} (h : L.Fits 0 ep)
    (hm : m.no = ep.arrivals) (hfind : (ep.posted k).find? f = some rx) :
    L.Fits {(m, rx)} (({ ep with
      arrivals := ep.arrivals + 1
      posted := Function.update ep.posted k ((ep.posted k).eraseP f) } : Ep).log
      (.paired m rx)) where
  config := h.config
  receives := by
    refine Eq.trans (congrArg (Multiset.map RxEntry.no) ?_) h.receives
    unfold Ledger.receives
    rw [ep.allPosted_update k rfl, ep.allPosted_eq k, List.coe_eraseP hfind,
      live_inHand L {(m, rx)}, Multiset.map_add, Multiset.map_singleton]
    ac_rfl
  messages := by
    show _ = Multiset.range (ep.arrivals + 1)
    rw [Multiset.range_succ, ← h.messages, ← hm, ← Multiset.map_cons]
    refine congrArg (Multiset.map Unexp.no) ?_
    unfold Ledger.messages
    rw [live_inHand L {(m, rx)}, Multiset.map_add, Multiset.map_singleton, ← Multiset.singleton_add]
    show ep.allUnexp + _ + _ = _
    ac_rfl
  pairings := by
    rw [Ep.pairings_of_paired (show _ = ep.trace ++ [.paired m rx] from rfl),
      live_inHand L {(m, rx)}, ← Multiset.coe_add, ← h.pairings]
    show _ = _ + {(m, rx)}
    ac_rfl
  pending := h.pending
  rxCq := h.rxCq

/-- A receive that takes an unexpected message is in hand with it. -/
theorem take_unexp {k : Bool} {f : Unexp → Bool} {m : Unexp} {rx : RxEntry} (h : L.Fits 0 ep)
    (hrx : rx.no = ep.postings) (hfind : (ep.unexp k).find? f = some m) :
    L.Fits {(m, rx)} (({ ep with
      postings := ep.postings + 1
      unexp := Function.update ep.unexp k ((ep.unexp k).eraseP f) } : Ep).log (.paired m rx)) where
  config := h.config
  receives := by
    show _ = Multiset.range (ep.postings + 1)
    rw [Multiset.range_succ, ← h.receives, ← hrx, ← Multiset.map_cons]
    refine congrArg (Multiset.map RxEntry.no) ?_
    unfold Ledger.receives
    rw [live_inHand L {(m, rx)}, Multiset.map_add, Multiset.map_singleton, ← Multiset.singleton_add]
    show ep.allPosted + _ + _ = _
    ac_rfl
  messages := by
    refine Eq.trans (congrArg (Multiset.map Unexp.no) ?_) h.messages
    unfold Ledger.messages
    rw [ep.allUnexp_update k rfl, ep.allUnexp_eq k, List.coe_eraseP hfind,
      live_inHand L {(m, rx)}, Multiset.map_add, Multiset.map_singleton]
    ac_rfl
  pairings := by
    rw [Ep.pairings_of_paired (show _ = ep.trace ++ [.paired m rx] from rfl),
      live_inHand L {(m, rx)}, ← Multiset.coe_add, ← h.pairings]
    show _ = _ + {(m, rx)}
    ac_rfl
  pending := h.pending
  rxCq := h.rxCq

/-- A receive is posted. -/
theorem post {k : Bool} {rx : RxEntry} (h : L.Fits 0 ep) (hrx : rx.no = ep.postings) :
    L.Fits 0 { ep with
      postings := ep.postings + 1
      posted := Function.update ep.posted k (ep.posted k ++ [rx]) } where
  config := h.config
  receives := by
    show _ = Multiset.range (ep.postings + 1)
    rw [Multiset.range_succ, ← h.receives, ← hrx, ← Multiset.map_cons]
    refine congrArg (Multiset.map RxEntry.no) ?_
    unfold Ledger.receives
    rw [ep.allPosted_update k rfl, ep.allPosted_eq k, ← Multiset.coe_add,
      ← Multiset.singleton_add, Multiset.coe_singleton]
    ac_rfl
  messages := h.messages
  pairings := h.pairings
  pending := h.pending
  rxCq := h.rxCq

/-- A message is buffered. -/
theorem buffer {k : Bool} {m : Unexp} (h : L.Fits 0 ep) (hm : m.no = ep.arrivals) :
    L.Fits 0 { ep with
      arrivals := ep.arrivals + 1
      unexp := Function.update ep.unexp k (ep.unexp k ++ [m]) } where
  config := h.config
  receives := h.receives
  messages := by
    show _ = Multiset.range (ep.arrivals + 1)
    rw [Multiset.range_succ, ← h.messages, ← hm, ← Multiset.map_cons]
    refine congrArg (Multiset.map Unexp.no) ?_
    unfold Ledger.messages
    rw [ep.allUnexp_update k rfl, ep.allUnexp_eq k, ← Multiset.coe_add,
      ← Multiset.singleton_add, Multiset.coe_singleton]
    ac_rfl
  pairings := h.pairings
  pending := h.pending
  rxCq := h.rxCq

/-- A posted receive is cancelled. -/
theorem cancel {k : Bool} {f : RxEntry → Bool} {rx : RxEntry} (h : L.Fits 0 ep)
    (hfind : (ep.posted k).find? f = some rx)
    (hposted : ep'.posted = Function.update ep.posted k ((ep.posted k).eraseP f))
    (hrest : ep' = { ep with posted := ep'.posted, rxCq := ep'.rxCq })
    (hcq : ep'.rxCq = ep.rxCq ++ (.cancelled rx : Retired cfg).entries) :
    (L.retire (.cancelled rx)).Fits 0 ep' where
  config := by
    rw [hrest]
    exact h.config
  receives := by
    rw [show ep'.postings = ep.postings by rw [hrest], ← h.receives]
    refine congrArg (Multiset.map RxEntry.no) ?_
    unfold Ledger.receives
    rw [ep.allPosted_update k hposted, ep.allPosted_eq k, List.coe_eraseP hfind, coe_retire,
      Multiset.map_cons, ← Multiset.singleton_add]
    show _ + (L.live 0).map Prod.snd + ({rx} + _) = _
    ac_rfl
  messages := by
    rw [show ep'.arrivals = ep.arrivals by rw [hrest], ← h.messages]
    refine congrArg (Multiset.map Unexp.no) ?_
    unfold Ledger.messages Ep.allUnexp
    rw [show ep'.unexp = ep.unexp by rw [hrest], coe_retire, Multiset.filterMap_cons_none _ _ rfl]
    rfl
  pairings := by
    rw [show ep'.pairings = ep.pairings by rw [hrest]; rfl, ← h.pairings, coe_retire,
      Multiset.filterMap_cons_none _ _ rfl]
    rfl
  pending := by
    rw [hrest]
    exact h.pending
  rxCq := by
    rw [hcq, h.rxCq, Ledger.retire, List.flatMap_append, List.flatMap_singleton]

/-! ## Calls -/

theorem postRecv {env : Env} (halloc : env.AllocOk) (h : L.Fits 0 ep) (iov : List Iovec)
    (addr tag ignore : UInt64) (context : ℕ) (flags : UInt64) (tagged : Bool) :
    L.Leads (rdsPostRecv env ep iov addr tag ignore context flags tagged).1 := by
  refine rdsPostRecv_elim (fun _ => h.leads) (fun rx hrx m hfind => ?_)
    (fun hnot => absurd halloc hnot) (fun rx hrx _ => ?_)
  · exact (h.take_unexp (by rw [hrx]; rfl) hfind).deliver halloc
  · exact ((h.post (k := tagged) (by rw [hrx]; rfl)).reports (.of_eq rfl)).leads

theorem handleMessage {env : Env} (halloc : env.AllocOk) (h : L.Fits 0 ep) {m : Unexp}
    (hm : m.no = ep.arrivals) : L.Leads (rdsHandleMessage env ep m) := by
  exact rdsHandleMessage_elim (fun rx hfind => (h.take_posted hm hfind).deliver halloc)
    (fun _ t => ((h.buffer (k := m.hdr.tagged) hm).reports (.of_eq rfl)).leads)
    (fun hnot => absurd halloc hnot) (fun hnot => absurd halloc hnot)

/-- **A well-formed message arrives.** -/
theorem handleInbound {env : Env} (halloc : env.AllocOk) (h : L.Fits 0 ep) {hdr : Hdr}
    {payload : List UInt8} (hmagic : hdr.magic = rdsHdrMagic)
    (hop : hdr.op = rdsOpEager
      ∨ (hdr.op = rdsOpRts ∧ hdr.segCnt.toNat * rdsSegSize ≤ payload.length))
    (src : SockAddr) (srcFi : UInt64) :
    L.Leads (rdsHandleInbound env ep hdr payload src srcFi) := by
  rw [rdsHandleInbound_of_message hmagic hop]
  exact h.handleMessage halloc rfl

theorem epCancel (h : L.Fits 0 ep) (context : ℕ) : L.Leads (rdsEpCancel ep context).1 := by
  refine rdsEpCancel_elim h.leads (fun k rx hfind => ?_)
  have hcontext : rx.context = context := by simpa using List.find?_some hfind
  refine ⟨L.retire (.cancelled rx), List.prefix_append _ _, h.cancel hfind rfl rfl ?_⟩
  rw [Retired.entries, ← h.config, hcontext]

theorem handleRdmaNotify (env : Env) (h : L.Fits 0 ep) (token : UInt64) (status : ℤ) :
    L.Leads (rdsHandleRdmaNotify env ep token status) := by
  have hrx {p : Pending} (hfind : rdsPendingFind ep p.id = some p) : p.type = .rndzvRx := by
    obtain ⟨-, b, -, -, hb, -, -, -⟩ := h.find hfind
    exact hb ▸ b.type
  have hlog {p : Pending} (htype : p.type = .rndzvRx) :
      L.Fits 0 { ep with trace := ep.trace ++ p.acks status } := by
    rw [Pending.acks, if_pos htype]
    exact h.reports (.log ep rfl)
  have hnext (p : Pending) (n : UInt32) :
      p.Advances { p with error := (p.heed status).error, segRemaining := n } := by
    have hheed : p.Advances (p.heed status) := by
      unfold Pending.heed
      split
      · exact .fail p _
      · exact .refl p
    rw [p.heed_eq status] at hheed
    exact hheed.trans (.counters _ _ _ _)
  refine rdsHandleRdmaNotify_elim h.leads (fun p n hfind _ => ?_) (fun p hfind htype => ?_)
    (fun p hfind htype => ?_)
  · exact (hlog (hrx hfind)).store hfind (hnext p n)
  · exact absurd (htype.symm.trans (hrx hfind)) (by decide)
  · exact (hlog htype).finish env hfind (hnext p _)

theorem retryDeferred (env : Env) (h : L.Fits 0 ep) (d : Deferred) :
    L.Leads (rdsRetryDeferred env ep d).1 := by
  refine rdsRetryDeferred_elim (fun _ _ => (h.reports (.of_eq rfl)).leads)
    (fun _ => (h.reports (.of_eq rfl)).leads) (fun peer id => ?_)
    (fun _ => (h.reports (.log ep rfl)).leads) (fun p e q hfind _ hcases => ?_)
  · have htick : L.Fits 0 { ep with tick := ep.tick + 1 } := h.reports (.of_eq rfl)
    exact (htick.reports (.log _ (e := .finLost peer id) rfl)).leads
  obtain ⟨hr, hq⟩ : ep.Reports [] e ∧ p.Advances q := by
    obtain ⟨t, op, rfl, rfl⟩ | ⟨t, err, rfl, rfl⟩ := hcases
    · refine ⟨⟨rfl, rfl, rfl, rfl, rfl, rfl, ?_, (List.append_nil _).symm⟩, .counters p _ _ _⟩
      exact (Ep.pairings_of_trace rfl).trans (by rw [p.pairing?_underflows, List.append_nil])
    · refine ⟨⟨rfl, rfl, rfl, rfl, rfl, rfl, ?_, (List.append_nil _).symm⟩,
        (Pending.Advances.counters p _ _ _).trans (.fail _ _)⟩
      refine (Ep.pairings_of_trace (List.append_assoc _ _ _)).trans ?_
      rw [List.filterMap_append, p.pairing?_underflows]
      exact List.append_nil _
  have hfind : rdsPendingFind e p.id = some p := by
    unfold rdsPendingFind
    rw [hr.pending]
    exact hfind
  dsimp only
  split
  · exact (h.reports hr).finish env hfind hq
  · exact (h.reports hr).store hfind hq

theorem progressDeferred (env : Env) (h : L.Fits 0 ep) :
    L.Leads (rdsProgressDeferred env ep).1 :=
  rdsProgressDeferred_keeps
    (fun _ _ hleads => hleads.trans fun _ hL' => (hL'.reports (.of_eq rfl)).leads)
    (fun _ d hleads => hleads.trans fun _ hL' => hL'.retryDeferred env d) h.leads

/-- **One step keeps a fitting ledger**, and what was retired stays retired. -/
theorem rxAct (h : L.Fits 0 ep) {a : RxAct} (ha : a.Fine) : L.Leads (ep.rxAct a) := by
  cases a with
  | post env iov addr tag ignore context flags tagged =>
    exact h.postRecv ha iov addr tag ignore context flags tagged
  | arrive env hdr payload src srcFi => exact h.handleInbound ha.1 ha.2.1 ha.2.2 src srcFi
  | cancel context => exact h.epCancel context
  | notify env token status => exact h.handleRdmaNotify env token status
  | retry env => exact h.progressDeferred env

/-- **A run keeps it.** -/
theorem run (h : L.Fits 0 ep) {acts : List RxAct} (hfine : ∀ a ∈ acts, a.Fine) :
    L.Leads (acts.foldl Ep.rxAct ep) := by
  induction acts generalizing ep L with
  | nil => exact h.leads
  | cons a acts ih =>
    obtain ⟨ha, hacts⟩ := List.forall_mem_cons.mp hfine
    exact (h.rxAct ha).trans (fun L' hL' => ih hL' hacts)

end Fits

end Ledger

/-! ## The account -/

/-- **Every receive and every message is accounted for exactly once.** After any run
a ledger fits the endpoint, and it retired what a fitting ledger had retired before:
each receive is posted, bound to one message by one pending operation, or retired,
once, by a message or by a cancel; each message is unexpected, bound, or consumed by
one receive; and the completion queue holds one entry for each retired receive that
was cancelled, failed or asked to report, and no other. -/
theorem receives_and_messages_accounted (cfg : EpCfg) (domain : Domain) (acts acts' : List RxAct)
    (hfine : ∀ a ∈ acts ++ acts', a.Fine) :
    ∃ L L' : Ledger cfg, L.Fits 0 (acts.foldl Ep.rxAct (Ep.init cfg domain))
      ∧ L'.Fits 0 ((acts ++ acts').foldl Ep.rxAct (Ep.init cfg domain))
      ∧ L.retired <+: L'.retired
      ∧ (cfg.hasRxCq = true → ∀ t ∈ L'.retired,
        t.entries.length = if t.isCancelled ∨ t.failed ∨ t.reports then 1 else 0) := by
  obtain ⟨hfine, hfine'⟩ := List.forall_mem_append.mp hfine
  obtain ⟨L, -, hL⟩ := (Ledger.Fits.init cfg domain).run hfine
  obtain ⟨L', hprefix, hL'⟩ := hL.run hfine'
  rw [List.foldl_append]
  exact ⟨L, L', hL, hL', hprefix, fun hcq t _ => t.length_entries hcq⟩

/-- Three receives, of which an eager message takes the first, a request the second,
and the third is cancelled. -/
def threeReceives : List RxAct :=
  let calm := Env.calm (fun _ _ => .error fiEnomem)
  [.post calm [⟨4096, 8⟩] fiAddrUnspec 0 0 7 0 false,
    .post calm [⟨8192, 100⟩] fiAddrUnspec 0 0 8 0 false,
    .post calm [⟨16384, 100⟩] fiAddrUnspec 0 0 9 0 false,
    .arrive calm (eagerHdr false 0 0 0 2) [1, 2] 20 1,
    .arrive calm (rtsHdr false 0 1 0 0 100 5) (encodeSegs [⟨11, 0, 100⟩]) 20 1,
    .cancel 9]

theorem threeReceives_fine : ∀ a ∈ threeReceives, a.Fine := by
  have halloc : (Env.calm (fun _ _ => .error fiEnomem)).AllocOk := fun _ => rfl
  unfold threeReceives
  simp only [List.forall_mem_cons]
  exact ⟨halloc, halloc, halloc, ⟨halloc, rfl, .inl rfl⟩, ⟨halloc, rfl, .inr ⟨rfl, by decide⟩⟩,
    trivial, fun _ h => absurd h List.not_mem_nil⟩

theorem threeReceives_accounted :
    (∀ a ∈ threeReceives ++ [], a.Fine)
      ∧ (threeReceives.foldl Ep.rxAct (Ep.init (EpCfg.standard false [10, 20] 10)
        (Domain.opened false (some 3) 0 0))).pending.length = 1
      ∧ (threeReceives.foldl Ep.rxAct (Ep.init (EpCfg.standard false [10, 20] 10)
        (Domain.opened false (some 3) 0 0))).rxCq.map CqEntry.context = [7, 9]
      ∧ ∃ L : Ledger (EpCfg.standard false [10, 20] 10),
        L.Fits 0 (threeReceives.foldl Ep.rxAct (Ep.init (EpCfg.standard false [10, 20] 10)
          (Domain.opened false (some 3) 0 0))) := by
  have hfine : ∀ a ∈ threeReceives ++ [], a.Fine := by
    rw [List.append_nil]
    exact threeReceives_fine
  obtain ⟨L, -, hL, -⟩ := receives_and_messages_accounted (EpCfg.standard false [10, 20] 10)
    (Domain.opened false (some 3) 0 0) threeReceives [] hfine
  exact ⟨hfine, by decide +kernel, by decide +kernel, L, hL⟩
