import RdsProv.SendEffects

/-!
# A send is all or nothing

An application that is told to retry calls again, so a send that failed must not have
done half of its work. `send_all_or_nothing` compares the endpoint before and after:
if the call failed, nothing changed but what a handshake changes; if it succeeded,
exactly one message was handed to the transport.
-/

/-! ## Counting references -/

/-- How often a cache entry is used; an entry that is not there is not used. -/
def Domain.useCount (dom : Domain) (h : ℕ) : ℕ :=
  ((dom.cache.entries.find? (·.handle == h)).map CacheEntry.useCnt).getD 0

/-- How many references a registration has; one that is not there has none. -/
def Domain.refCount (dom : Domain) (h : ℕ) : ℕ :=
  ((dom.mrs.find? (·.handle == h)).map RdsMr.ref).getD 0

namespace Domain.Custody

variable {strict : Prop} {dom : Domain} {cached plain : Multiset ℕ}

/-- The use counts are the numbers of holders. -/
theorem useCount (h : dom.Custody strict cached plain) (x : ℕ) :
    dom.useCount x = cached.count x := by
  unfold Domain.useCount
  cases hfind : dom.cache.entries.find? (·.handle == x) with
  | some e =>
    have hx : e.handle = x := by simpa using List.find?_some hfind
    rw [← hx]
    exact h.cache.uses e (List.mem_of_find?_eq_some hfind)
  | none =>
    refine (Multiset.count_eq_zero.mpr (fun hin => ?_)).symm
    obtain ⟨e, hsome, -, -⟩ := h.cache.find?_isSome hin
    rw [hfind] at hsome
    cases hsome

/-- The reference counts are the numbers of holders. -/
theorem refCount (h : dom.Custody strict cached plain) (x : ℕ) :
    dom.refCount x = plain.count x := by
  unfold Domain.refCount
  cases hfind : dom.mrs.find? (·.handle == x) with
  | some m =>
    have hx : m.handle = x := by simpa using List.find?_some hfind
    rw [← hx]
    exact h.mrs.refs m (List.mem_of_find?_eq_some hfind)
  | none =>
    refine (Multiset.count_eq_zero.mpr (fun hin => ?_)).symm
    obtain ⟨m, hm, hx⟩ := List.mem_map.mp (h.mrs.mem x hin)
    exact absurd hx (by simpa using List.find?_eq_none.mp hfind m hm)

end Domain.Custody

/-- The references to a registration, but for those of peers to their rings and credit
cells. -/
def Ep.sourceRefs (ep : Ep) (h : ℕ) : ℕ := ep.domain.refCount h - ep.ringHeld.count h

/-! ## Producer counters -/

/-- The number of slots produced for an address; none if there is no peer. -/
def RingBook.txHeadOf (b : RingBook) (a : UInt64) : UInt64 := ((b.table a).map Peer.txHead).getD 0

/-- The number of slots produced for an address. -/
def Ep.txHeadOf (ep : Ep) (a : UInt64) : UInt64 := ((rdsPeerFind ep a).map Peer.txHead).getD 0

namespace RingBook

variable {cfg : EpCfg} {inp : RingInput} {b b' : RingBook}

theorem txHeadOf_put {p q : Peer} (hp : b.table p.addr = some p) (haddr : q.addr = p.addr)
    (hhead : q.txHead = p.txHead) (a : UInt64) : (b.put q).txHeadOf a = b.txHeadOf a := by
  unfold txHeadOf
  by_cases ha : a = q.addr
  · rw [ha, table_put_self, haddr, hp]
    exact hhead
  · rw [table_put_of_ne b ha]

/-- A quiet rule produces no slot. -/
theorem Quiet.txHeadOf (h : Quiet cfg inp b b') (a : UInt64) : b'.txHeadOf a = b.txHeadOf a := by
  cases h with
  | @create a' sa p hnone hsa hp =>
    have hblank : p.addr = a' ∧ p.txHead = 0 := by
      obtain ⟨ring, credit, rfl⟩ | rfl := hp
      · exact ⟨rfl, rfl⟩
      · exact ⟨rfl, rfl⟩
    unfold RingBook.txHeadOf
    by_cases ha : a = p.addr
    · rw [ha, table_put_self, hblank.1, hnone]
      exact hblank.2
    · rw [table_put_of_ne b ha]
  | kick hp => refine txHeadOf_put hp ?_ ?_ a <;> rfl
  | expire hp => refine txHeadOf_put hp ?_ ?_ a <;> rfl
  | refuse hp => refine txHeadOf_put hp ?_ ?_ a <;> rfl
  | adopt hp => refine txHeadOf_put hp ?_ ?_ a <;> rfl
  | refresh hp =>
    exact txHeadOf_put hp (Peer.Steady.refreshCredit _).addr (Peer.Steady.refreshCredit _).txHead a
  | stage hp => refine txHeadOf_put hp ?_ ?_ a <;> rfl

theorem Quiets.txHeadOf (h : Quiets cfg inp b b') (a : UInt64) :
    b'.txHeadOf a = b.txHeadOf a := by
  induction h with
  | refl => rfl
  | tail _ hstep ih => exact (hstep.txHeadOf a).trans ih

end RingBook

/-! ## Messages handed over -/

/-- Whether a datagram carries a message or a request. -/
def Dgram.isMessage (d : Dgram) : Bool := d.hdr.op == rdsOpEager || d.hdr.op == rdsOpRts

/-- Whether an RDMA operation places a message or a request in a ring. -/
def RdmaOp.isMessage (w : RdmaOp) : Bool :=
  match w.loc with
  | .stage _ slot => slot.op == rdsOpEager || slot.op == rdsOpRts
  | _ => false

/-- **Nothing was sent and nothing is held that was not held before.** -/
structure Ep.SendUndone (ep ep' : Ep) : Prop where
  pending : ep'.pending = ep.pending
  txInflight : ep'.rndzvTxInflight = ep.rndzvTxInflight
  posted : ep'.posted = ep.posted
  unexp : ep'.unexp = ep.unexp
  deferred : ep'.deferred = ep.deferred
  txCq : ep'.txCq = ep.txCq
  rxCq : ep'.rxCq = ep.rxCq
  cacheUses : ∀ h, ep'.domain.useCount h = ep.domain.useCount h
  sourceRefs : ∀ h, ep'.sourceRefs h = ep.sourceRefs h
  txHead : ∀ a, ep'.txHeadOf a = ep.txHeadOf a
  writes : ep'.writes = ep.writes
  wire : ∃ l, ep'.wire = ep.wire ++ l
    ∧ ∀ d ∈ l, d.hdr.op = rdsOpRingReq ∨ d.hdr.op = rdsOpRingAck

/-- **Exactly one message was handed over**, on the socket or in a ring. -/
def Ep.HandsOverOne (ep ep' : Ep) : Prop :=
  ∃ l w, ep'.wire = ep.wire ++ l ∧ ep'.writes = ep.writes ++ w
    ∧ (∀ v ∈ w, v.isMessage = true) ∧ l.countP Dgram.isMessage + w.length = 1

theorem Ep.SendQuiet.undone {inp : RingInput} {ep ep' : Ep} (h : ep.SendQuiet inp ep')
    {cached plain : Multiset ℕ} (hdom : ep.domain.Custody False cached (ep.ringHeld + plain)) :
    ep.SendUndone ep' where
  pending := by rw [h.eq]
  txInflight := by rw [h.eq]
  posted := by rw [h.eq]
  unexp := by rw [h.eq]
  deferred := by rw [h.eq]
  txCq := by rw [h.eq]
  rxCq := by rw [h.eq]
  cacheUses x := by rw [(h.regs _ _ hdom).useCount, hdom.useCount]
  sourceRefs x := by
    unfold Ep.sourceRefs
    rw [(h.regs _ _ hdom).refCount, hdom.refCount, Multiset.count_add, Multiset.count_add,
      Nat.add_sub_cancel_left, Nat.add_sub_cancel_left]
  txHead := h.book.txHeadOf
  writes := by rw [h.eq]
  wire := h.wire

/-- Handshakes are no messages. -/
theorem countP_isMessage_eq_zero {l : List Dgram}
    (h : ∀ d ∈ l, d.hdr.op = rdsOpRingReq ∨ d.hdr.op = rdsOpRingAck) :
    l.countP Dgram.isMessage = 0 := by
  refine List.countP_eq_zero.mpr (fun d hd => ?_)
  unfold Dgram.isMessage
  obtain hop | hop := h d hd
  · rw [hop]
    decide
  · rw [hop]
    decide

/-- **A message that is handed over is the only one.** -/
theorem Ep.Ships.handsOverOne {inp : RingInput} {ep ep' : Ep} {destAddr : UInt64} {op : UInt8}
    {d : Dgram} {payload : List UInt8} (h : ep.Ships inp ep' destAddr op d payload)
    (hd : d.isMessage = true) (hop : op = rdsOpEager ∨ op = rdsOpRts) : ep.HandsOverOne ep' := by
  obtain ⟨e, hquiet, rfl⟩ | ⟨-, e, p, flags, tag, data, hquiet, -, -, -, -, -, heq, -⟩ := h
  · obtain ⟨l, hl, hctrl⟩ := hquiet.wire
    refine ⟨l ++ [d], [], ?_, ?_, by simp, ?_⟩
    · show e.wire ++ [d] = _
      rw [hl, List.append_assoc]
    · exact hquiet.writes.trans (List.append_nil _).symm
    · rw [List.countP_append, countP_isMessage_eq_zero hctrl, List.countP_singleton, if_pos hd]
      rfl
  · obtain ⟨l, hl, hctrl⟩ := hquiet.wire
    refine ⟨l, [p.slotWrite (p.fillSlot op flags tag data payload)], ?_, ?_, fun v hv => ?_, ?_⟩
    · rw [heq]
      exact hl
    · rw [heq, ← hquiet.writes]
    · rw [List.mem_singleton.mp hv]
      show (op == rdsOpEager || op == rdsOpRts) = true
      obtain rfl | rfl := hop
      · rfl
      · rfl
    · rw [countP_isMessage_eq_zero hctrl]
      rfl

/-- Only the wire and the writes matter. -/
theorem Ep.HandsOverOne.congr {ep₀ ep ep' ep₁ : Ep} (h : ep.HandsOverOne ep')
    (hwire₀ : ep.wire = ep₀.wire) (hwrites₀ : ep.writes = ep₀.writes)
    (hwire : ep₁.wire = ep'.wire) (hwrites : ep₁.writes = ep'.writes) : ep₀.HandsOverOne ep₁ := by
  obtain ⟨l, w, hl, hw, rest⟩ := h
  exact ⟨l, w, by rw [hwire, hl, hwire₀], by rw [hwrites, hw, hwrites₀], rest⟩

/-! ## The result -/

/-- The result of a send or an inject. -/
def SendResult (env : Env) (ep : Ep) (r : Ep × Ret) : Prop :=
  (∃ iov destAddr tag data context flags tagged,
      rdsGenericSend env ep iov destAddr tag data context flags tagged = r)
    ∨ ∃ buf len destAddr tag tagged, rdsGenericInject env ep buf len destAddr tag tagged = r

/-- What the effects of an eager send amount to. -/
theorem handsOverOne_of_eager {inp : RingInput} {ep e ep' : Ep} {dest : SockAddr}
    {destAddr tag data flags : UInt64} {tagged : Bool} {total : ℕ} {bytes payload : List UInt8}
    (hships : ep.Ships inp e destAddr rdsOpEager
      ⟨ep.cfg.self, dest, (eagerHdr tagged flags tag data total).encode ++ bytes⟩ payload)
    (heq : ep' = { e with txCq := ep'.txCq }) : ep.HandsOverOne ep' := by
  have hmsg : Dgram.isMessage
      ⟨ep.cfg.self, dest, (eagerHdr tagged flags tag data total).encode ++ bytes⟩ = true := by
    unfold Dgram.isMessage Dgram.hdr
    rw [Hdr.decode_encode]
    rfl
  refine (hships.handsOverOne hmsg (.inl rfl)).congr rfl rfl ?_ ?_
  · rw [heq]
  · rw [heq]

/-- A send is quiet or hands over one message. -/
theorem SendResult.cases {env : Env} {ep : Ep} {r : Ep × Ret} (hr : SendResult env ep r) :
    (r.2 ≠ .ok ∧ ep.SendQuiet .any r.1) ∨ (r.2 = .ok ∧ ep.HandsOverOne r.1) := by
  obtain ⟨iov, destAddr, tag, data, context, flags, tagged, hr⟩
    | ⟨buf, len, destAddr, tag, tagged, hr⟩ := hr
  · obtain hfail | ⟨hret, -, dest, e, -, hships, heq⟩
      | ⟨hret, -, dest, e₁, e₂, genComp, segs, mrs, -, -, -, hreg, hships, heq⟩ :=
      rdsGenericSend_effects env ep iov destAddr tag data context flags tagged
        (fun _ => RingInput.any_expires destAddr) hr
    · exact .inl hfail
    · exact .inr ⟨hret, handsOverOne_of_eager hships heq⟩
    · refine .inr ⟨hret, ?_⟩
      have hmsg : Dgram.isMessage ⟨ep.cfg.self, dest,
          (rtsHdr tagged flags (rdsNseg iov) tag data (ofiTotalIovLen iov)
            (succId ep.opId)).encode ++ encodeSegs segs⟩ = true := by
        unfold Dgram.isMessage Dgram.hdr
        rw [Hdr.decode_encode]
        rfl
      refine (hships.handsOverOne hmsg (.inr rfl)).congr ?_ ?_ ?_ ?_
      · rw [hreg.eq]
      · rw [hreg.eq]
      · rw [heq]
        rfl
      · rw [heq]
        rfl
  · obtain hfail | ⟨hret, -, dest, e, -, hships, heq⟩ := rdsGenericInject_effects env ep buf len
      destAddr tag tagged (fun _ => RingInput.any_expires destAddr) hr
    · exact .inl hfail
    · exact .inr ⟨hret, handsOverOne_of_eager hships heq⟩

/-- **A send is all or nothing.** In a domain whose counts are right, a send or an inject
that fails leaves the pending operations, the queues, the completions, the references to
sources and the producer counters as they were and hands nothing over but handshakes; one
that succeeds hands over one message, on one channel. -/
theorem send_all_or_nothing (env : Env) (ep : Ep) (r : Ep × Ret) (hr : SendResult env ep r)
    (hdom : ∃ cached plain, ep.domain.Custody False cached (ep.ringHeld + plain)) :
    (r.2 ≠ .ok → ep.SendUndone r.1) ∧ (r.2 = .ok → ep.HandsOverOne r.1) := by
  obtain ⟨cached, plain, hdom⟩ := hdom
  obtain ⟨hret, hquiet⟩ | ⟨hret, hone⟩ := hr.cases
  · exact ⟨fun _ => hquiet.undone hdom, fun h => absurd h hret⟩
  · exact ⟨fun h => absurd hret h, fun _ => hone⟩

/-- A first send with the ring on creates a peer, registers its ring and kicks off the
handshake; the caller is asked to retry, and nothing else changed. -/
theorem first_ring_send_leaves_no_trace :
    let env := Env.calm (fun calls _ => .ok (UInt64.ofNat calls.length))
    let ep := Ep.init (EpCfg.standard true [10, 20] 10) (.opened true (some 3) 1024 268435456)
    let r := rdsGenericSend env ep [⟨4096, 4⟩] 1 0 0 7 0 false
    r.2 = .err fiEagain ∧ r.1.peers.length = 1 ∧ ep.SendUndone r.1 := by
  intro env ep r
  have hret : r.2 = .err fiEagain := by decide +kernel
  refine ⟨hret, by decide +kernel, (send_all_or_nothing env ep r
    (.inl ⟨[⟨4096, 4⟩], 1, 0, 0, 7, 0, false, rfl⟩) ⟨0, 0, ?_⟩).1 ?_⟩
  · exact .opened true (some 3) 1024 268435456
  · rw [hret]
    simp
