import RdsProv.Machine

/-!
# What faces inward

The counterpart of `Ep.Outer`. Receiving moves receives and messages between
lists, opens and finishes rendezvous receives and answers with `FIN`s; it leaves
the peers, the registrations and the sends in progress alone. `Ep.Inward ep ep'`
says that a step did only such things.

Three steps do a little more. A notification can complete a one-sided operation,
which gives back the registrations it records – none, but that is an invariant
and not a matter of one step. A retry of a parked read can finalize whatever
operation its id finds. A `FIN` completes a send. For these the weaker
`Ep.OffRing` holds without conditions: the peers and what was written to their
rings are as they were, and no handshake was sent.
-/

/-- What an operation holds while it is pending: registrations, and, if it is a
send, a place among the sends in flight. -/
def Pending.hold (p : Pending) : Option (PendType × Bool × List ℕ) :=
  if p.type = .rndzvTx ∨ p.mrs ≠ [] then some (p.type, p.cached, p.mrs) else none

/-- What the pending operations of an endpoint hold. -/
def Ep.holds (ep : Ep) : List (PendType × Bool × List ℕ) := ep.pending.filterMap Pending.hold

/-- **The ring is not involved**, and nothing but `FIN`s was sent. -/
structure Ep.OffRing (ep ep' : Ep) : Prop where
  cfg : ep'.cfg = ep.cfg
  peers : ep'.peers = ep.peers
  writes : ep'.writes = ep.writes
  wire : ∃ l, ep'.wire = ep.wire ++ l ∧ ∀ d ∈ l, ∃ dst id, d = finDgram ep.cfg.self dst id

namespace Ep.OffRing

/-- A step that sent nothing. -/
theorem of_eq {ep ep' : Ep} (hcfg : ep'.cfg = ep.cfg) (hpeers : ep'.peers = ep.peers)
    (hwrites : ep'.writes = ep.writes) (hwire : ep'.wire = ep.wire) : ep.OffRing ep' :=
  ⟨hcfg, hpeers, hwrites, [], by rw [hwire, List.append_nil], by simp⟩

theorem refl (ep : Ep) : ep.OffRing ep := of_eq rfl rfl rfl rfl

theorem trans {e₁ e₂ e₃ : Ep} (h : e₁.OffRing e₂) (h' : e₂.OffRing e₃) : e₁.OffRing e₃ where
  cfg := h'.cfg.trans h.cfg
  peers := h'.peers.trans h.peers
  writes := h'.writes.trans h.writes
  wire := by
    obtain ⟨l, hl, hfin⟩ := h.wire
    obtain ⟨l', hl', hfin'⟩ := h'.wire
    rw [h.cfg] at hfin'
    exact ⟨l ++ l', by rw [hl', hl, List.append_assoc], List.forall_mem_append.mpr ⟨hfin, hfin'⟩⟩

/-- What was sent are `FIN`s by their operation. -/
theorem op_wire {ep ep' : Ep} (h : ep.OffRing ep') :
    ∃ l, ep'.wire = ep.wire ++ l ∧ ∀ d ∈ l, d.hdr.op = rdsOpFin := by
  obtain ⟨l, hl, hfin⟩ := h.wire
  refine ⟨l, hl, fun d hd => ?_⟩
  obtain ⟨dst, id, rfl⟩ := hfin d hd
  rw [Dgram.hdr, finDgram, ← List.append_nil (finHdr id).encode, Hdr.decode_encode]
  rfl

end Ep.OffRing

/-- **Only what faces inward changed.** -/
structure Ep.Inward (ep ep' : Ep) : Prop extends Ep.OffRing ep ep' where
  domain : ep'.domain = ep.domain
  txInflight : ep'.rndzvTxInflight = ep.rndzvTxInflight
  holds : ep'.holds = ep.holds

namespace Ep.Inward

/-- A step that sent nothing and opened or closed nothing. -/
theorem of_eq {ep ep' : Ep} (h : ep' = { ep with
      posted := ep'.posted, unexp := ep'.unexp, deferred := ep'.deferred, opId := ep'.opId,
      txCq := ep'.txCq, rxCq := ep'.rxCq, placed := ep'.placed, inflight := ep'.inflight,
      tick := ep'.tick, trace := ep'.trace, postings := ep'.postings,
      arrivals := ep'.arrivals, idsGiven := ep'.idsGiven }) : ep.Inward ep' := by
  rw [h]
  exact ⟨.of_eq rfl rfl rfl rfl, rfl, rfl, rfl⟩

theorem refl (ep : Ep) : ep.Inward ep := of_eq rfl

theorem trans {e₁ e₂ e₃ : Ep} (h : e₁.Inward e₂) (h' : e₂.Inward e₃) : e₁.Inward e₃ where
  toOffRing := h.toOffRing.trans h'.toOffRing
  domain := h'.domain.trans h.domain
  txInflight := h'.txInflight.trans h.txInflight
  holds := h'.holds.trans h.holds

theorem ite {ep a b : Ep} {c : Prop} [Decidable c] (ha : ep.Inward a) (hb : ep.Inward b) :
    ep.Inward (if c then a else b) := by
  split
  · exact ha
  · exact hb

/-- An operation that holds nothing is linked. -/
theorem linkPending (ep : Ep) {p : Pending} (hp : p.hold = none) :
    ep.Inward (ep.linkPending p) := by
  refine ⟨.of_eq rfl rfl rfl rfl, rfl, rfl, ?_⟩
  show (ep.pending ++ [p]).filterMap Pending.hold = _
  rw [List.filterMap_append, List.filterMap_cons_none hp]
  exact List.append_nil _

/-- An operation is written back, holding what it held. -/
theorem storePending {ep : Ep} {p q : Pending} (hfind : rdsPendingFind ep q.id = some p)
    (hold : q.hold = p.hold) : ep.Inward (ep.storePending q) := by
  refine ⟨.of_eq rfl rfl rfl rfl, rfl, rfl, ?_⟩
  obtain ⟨l₁, l₂, hl, -, -, -, hmod⟩ := List.find?_split hfind
  show (ep.pending.modifyFirst (·.id == q.id) (fun _ => q)).filterMap Pending.hold
    = ep.pending.filterMap Pending.hold
  rw [hmod, hl, List.filterMap_append, List.filterMap_append, List.filterMap_cons,
    List.filterMap_cons, hold]

/-- An operation that holds nothing is unlinked. -/
theorem unlinkPending {ep : Ep} {p : Pending} {id : UInt64}
    (hfind : rdsPendingFind ep id = some p) (hp : p.hold = none) :
    ep.Inward (ep.unlinkPending id) := by
  refine ⟨.of_eq rfl rfl rfl rfl, rfl, rfl, ?_⟩
  obtain ⟨l₁, l₂, hl, -, -, herase, -⟩ := List.find?_split hfind
  show (ep.pending.eraseP (·.id == id)).filterMap Pending.hold
    = ep.pending.filterMap Pending.hold
  rw [herase, hl, List.filterMap_append, List.filterMap_append, List.filterMap_cons_none hp]

/-! ### Receiving -/

/-- A `FIN` is sent, parked, or lost. -/
theorem sendFin (env : Env) (ep : Ep) (peer : SockAddr) (id : UInt64) :
    ep.Inward (rdsSendFin env ep peer id) := by
  obtain h | h | ⟨-, t, h⟩ := rdsSendFin_cases env ep peer id
  · rw [h]
    exact ⟨⟨rfl, rfl, rfl, [_], rfl, fun d hd => ⟨peer, id, List.mem_singleton.mp hd⟩⟩, rfl, rfl,
      rfl⟩
  · rw [h]
    exact .of_eq rfl
  · rw [h]
    exact .of_eq rfl

/-- A receive that is done answers its sender, and reports. -/
theorem finalize (env : Env) (ep : Ep) (p : Pending) :
    ep.Inward (rdsRndzvRxFinalize env ep p) := by
  rw [rdsRndzvRxFinalize_eq env ep p rfl]
  exact (sendFin env ep p.peer p.peerId).trans (.of_eq rfl)

/-- Reads are issued; their owner holds what it held. -/
theorem issueReads (env : Env) (peer : SockAddr) (rts : UInt64) (rs : List ReadReq)
    (s : Ep × Pending) : s.1.Inward (rs.foldl (rdsIssueRead env peer rts) s).1
      ∧ (rs.foldl (rdsIssueRead env peer rts) s).2.hold = s.2.hold := by
  refine rdsIssueReads_keeps (P := fun e p => s.1.Inward e ∧ p.hold = s.2.hold)
    (fun _ _ _ _ h => ⟨h.1.trans (.of_eq rfl), h.2⟩)
    (fun _ _ _ _ h => ⟨h.1.trans (.of_eq rfl), h.2⟩)
    (fun _ p _ e h => ⟨h.1.trans (.of_eq rfl), Eq.trans ?_ h.2⟩) rs ⟨refl _, rfl⟩
  unfold Pending.fail
  split
  · rfl
  · rfl

theorem startRndzvRead (env : Env) (ep : Ep) (rx : RxEntry) (hdr : Hdr) (segs : List Seg)
    (peer : SockAddr) (src : UInt64) :
    ep.Inward (rdsStartRndzvRead env ep rx hdr segs peer src) := by
  refine rdsStartRndzvRead_elim (fun _ => ?_) (fun _ e q hreads => ?_)
  · have htick : ep.Inward { ep with tick := ep.tick + 1 } := .of_eq rfl
    rw [rdsCqWriteRx_eq]
    exact htick.trans ((sendFin env _ peer hdr.id).trans (.of_eq rfl))
  have hopen : ep.Inward (ep.rxOpened rx hdr) := .of_eq rfl
  obtain ⟨hissue, hold⟩ := issueReads env peer hdr.id
    (rndzvReads rx.iov (min hdr.size.toNat rx.totalLen) 0 segs)
    (ep.rxOpened rx hdr, ep.rxOperation rx hdr peer src)
  rw [hreads] at hissue hold
  exact .ite (hopen.trans (hissue.trans (finalize env e q)))
    (hopen.trans (hissue.trans (linkPending e (hold.trans rfl))))

/-- **A message meets its receive.** -/
theorem deliver (env : Env) (ep : Ep) (rx : RxEntry) (m : Unexp) :
    ep.Inward (rdsDeliver env ep rx m) := by
  have hlog : ep.Inward (ep.log (.paired m rx)) := .of_eq rfl
  exact rdsDeliver_elim (fun _ => .of_eq rfl)
    (fun _ => hlog.trans (startRndzvRead env _ _ _ _ _ _))

/-- A message is delivered, kept, or dropped for want of memory; if it is a request, a drop
is answered. -/
theorem handleMessage (env : Env) (ep : Ep) (m : Unexp) :
    ep.Inward (rdsHandleMessage env ep m) := by
  exact rdsHandleMessage_elim (fun rx _ => (of_eq rfl).trans (deliver env _ rx m))
    (fun _ t => .of_eq rfl) (fun _ _ t => (of_eq rfl).trans (sendFin env _ _ _))
    (fun _ t => .of_eq rfl)

/-- **A receive is posted**, and takes a message that waits. -/
theorem postRecv (env : Env) (ep : Ep) (iov : List Iovec) (addr tag ignore : UInt64)
    (context : ℕ) (flags : UInt64) (tagged : Bool) :
    ep.Inward (rdsPostRecv env ep iov addr tag ignore context flags tagged).1 := by
  exact rdsPostRecv_elim (fun _ => .refl ep)
    (fun rx _ ux _ => (of_eq rfl).trans (deliver env _ rx ux)) (fun _ _ _ _ => .of_eq rfl)
    (fun rx _ _ => .of_eq rfl)

theorem cancel (ep : Ep) (context : ℕ) : ep.Inward (rdsEpCancel ep context).1 :=
  rdsEpCancel_elim (.refl ep) (fun _ _ _ => .of_eq rfl)

/-! ### One-sided operations -/

/-- One-sided operations hold no registrations: the memory is the application's. -/
theorem startsRma {ep e : Ep} (h : ep.StartsRma e) : ep.Inward e := by
  cases h with
  | refused t => exact .of_eq rfl
  | issued t ops => exact .of_eq rfl
  | pending t ops p htype hmrs _ _ =>
    have hnone : p.hold = none := if_neg (by rw [htype, hmrs]; decide)
    exact (of_eq rfl : ep.Inward (ep.issued t ops)).trans (linkPending _ hnone)

end Ep.Inward

/-! ## Completions, notifications and retries -/

namespace Ep.OffRing

theorem pendingComplete (ep : Ep) (p : Pending) : ep.OffRing (rdsPendingComplete ep p) := by
  rw [rdsPendingComplete_eq]
  exact .of_eq rfl rfl rfl rfl

/-- **A notification** counts, completes a one-sided operation, or finishes a receive. -/
theorem handleRdmaNotify (env : Env) (ep : Ep) (token : UInt64) (status : ℤ) :
    ep.OffRing (rdsHandleRdmaNotify env ep token status) := by
  have hlog (p : Pending) : ep.OffRing { ep with trace := ep.trace ++ p.acks status } :=
    .of_eq rfl rfl rfl rfl
  refine rdsHandleRdmaNotify_elim (.refl ep) (fun p n _ _ => .of_eq rfl rfl rfl rfl)
    (fun p _ _ => (hlog p).trans (pendingComplete _ _)) (fun p _ _ => ?_)
  exact (hlog p).trans ((Ep.Inward.finalize env _ _).toOffRing.trans (.of_eq rfl rfl rfl rfl))

/-- **A retry** sends nothing but the `FIN` it is about, or that of the receive it finishes. -/
theorem retryDeferred (env : Env) (ep : Ep) (d : Deferred) :
    ep.OffRing (rdsRetryDeferred env ep d).1 := by
  refine rdsRetryDeferred_elim (fun peer id => ⟨rfl, rfl, rfl, [_], rfl, fun d hd =>
      ⟨peer, id, List.mem_singleton.mp hd⟩⟩) (fun _ => .of_eq rfl rfl rfl rfl)
    (fun _ _ => .of_eq rfl rfl rfl rfl) (fun _ => .of_eq rfl rfl rfl rfl)
    (fun p e q _ _ hcases => ?_)
  have he : ep.OffRing e := by
    obtain ⟨t, op, rfl, -⟩ | ⟨t, err, rfl, -⟩ := hcases
    · exact .of_eq rfl rfl rfl rfl
    · exact .of_eq rfl rfl rfl rfl
  dsimp only
  split
  · exact he.trans ((Ep.Inward.finalize env e q).toOffRing.trans (.of_eq rfl rfl rfl rfl))
  · exact he.trans (.of_eq rfl rfl rfl rfl)

/-- The walk of the deferred queue stays off the rings. -/
theorem progressDeferred (env : Env) (ep : Ep) : ep.OffRing (rdsProgressDeferred env ep).1 :=
  rdsProgressDeferred_keeps (fun _ _ h => h.trans (.of_eq rfl rfl rfl rfl))
    (fun e d h => h.trans (retryDeferred env e d)) (.refl ep)

end Ep.OffRing
