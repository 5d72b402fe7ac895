import RdsProv.RingRefine

/-!
# Returning credit

A consumer tells its producer how far it is with credit writes: in the middle of a
pass once half the ring has been consumed, and at the end of a pass that consumed
anything. Both writes may be refused by the socket, and nothing is parked: what was
not returned is returned by a later pass – if that pass consumes something.

`rdsRingPollPeer_credit_iff` says exactly when a pass in which the socket accepts
every RDMA operation leaves no credit behind. A pass that finds no slot returns
nothing, so a credit refused once stays withheld until the producer, which may have
no room left, sends again.
-/

/-- The socket accepts every RDMA operation. -/
def Env.RdmaOk (env : Env) : Prop := ∀ t op, env.sendmsg t (.rdma op) = none

/-- No credit is owed to a peer. -/
def Ep.CreditPaid (ep : Ep) (addr : UInt64) : Prop :=
  ∃ p, rdsPeerFind ep addr = some p ∧ p.rxCreditSent = p.rxHead

/-- Returning credit pays it if the write is accepted. -/
theorem rdsRingReturnCredit_paid {env : Env} (henv : env.RdmaOk) {ep : Ep} {p : Peer}
    (hp : rdsPeerFind ep p.addr = some p) : (rdsRingReturnCredit env ep p).CreditPaid p.addr := by
  obtain ⟨⟨e, hrefused⟩, -⟩ | ⟨-, h⟩ := rdsRingReturnCredit_cases env ep p
  · rw [henv] at hrefused
    cases hrefused
  · rw [h]
    exact ⟨{ p with creditTx := p.rxHead, rxCreditSent := p.rxHead },
      rdsPeerFind_setPeer_self hp, rfl⟩

/-- Returning credit keeps the record. -/
theorem rdsRingReturnCredit_find (env : Env) {ep : Ep} {p : Peer}
    (hp : rdsPeerFind ep p.addr = some p) :
    ∃ q, rdsPeerFind (rdsRingReturnCredit env ep p) p.addr = some q := by
  obtain ⟨-, h⟩ | ⟨-, h⟩ := rdsRingReturnCredit_cases env ep p
  · rw [h]
    exact ⟨_, rdsPeerFind_setPeer_self (q := { p with creditTx := p.rxHead }) hp⟩
  · rw [h]
    exact ⟨_, rdsPeerFind_setPeer_self
      (q := { p with creditTx := p.rxHead, rxCreditSent := p.rxHead }) hp⟩

/-- A flush pays what is owed if its write is accepted. -/
theorem rdsRingFlushCredit_paid {env : Env} (henv : env.RdmaOk) {ep : Ep} {addr : UInt64}
    {p : Peer} (hp : rdsPeerFind ep addr = some p) :
    (rdsRingFlushCredit env ep addr).CreditPaid addr := by
  unfold rdsRingFlushCredit
  rw [hp]
  dsimp only
  have haddr := rdsPeerFind_addr hp
  split
  · rw [← haddr]
    exact rdsRingReturnCredit_paid henv (by rw [haddr]; exact hp)
  · rename_i howed
    exact ⟨p, hp, (not_not.mp howed).symm⟩

/-- **A round of polling** that finds a slot keeps the record; one that finds none
does nothing. -/
theorem rdsRingPollSlot_find (env : Env) {ep : Ep} {addr : UInt64} {p : Peer}
    (hp : rdsPeerFind ep addr = some p) :
    (p.nextSlot ep.cfg.geom.slots = none ∧ rdsRingPollSlot env ep addr = none)
      ∨ ((p.nextSlot ep.cfg.geom.slots).isSome ∧ ∃ e q,
        rdsRingPollSlot env ep addr = some e ∧ rdsPeerFind e addr = some q) := by
  cases hnext : p.nextSlot ep.cfg.geom.slots with
  | none =>
    refine .inl ⟨rfl, ?_⟩
    unfold rdsRingPollSlot
    dsimp only
    rw [hp]
    dsimp only
    rw [hnext]
  | some slot =>
    have hany : ∀ op i, slot.ctrl? = some (op, i) → addr ≠ fiAddrNotavail →
        RingInput.any.hears addr op i := fun _ _ _ _ => trivial
    obtain ⟨e, q, -, -, -, hq, -, h⟩ := rdsRingPollSlot_ring env hp hnext hany
    have haddr : q.addr = addr := rdsPeerFind_addr hq
    rw [← haddr] at hq
    have hself := rdsPeerFind_setPeer_self (q := { q with rxHead := q.rxHead + 1 }) hq
    obtain ⟨r, hr⟩ := rdsRingReturnCredit_find env hself
    rw [h, ← haddr]
    split
    · exact .inr ⟨rfl, _, r, rfl, hr⟩
    · exact .inr ⟨rfl, _, _, rfl, hself⟩

/-- The loop of a pass keeps the record, and remembers that it consumed a slot. -/
theorem rdsRingPollLoop_find (env : Env) (addr : UInt64) (fuel : ℕ) {ep : Ep} (drained : Bool)
    {p : Peer} (hp : rdsPeerFind ep addr = some p) :
    (∃ q, rdsPeerFind (rdsRingPollLoop env addr fuel ep drained).1 addr = some q)
      ∧ (drained = true → (rdsRingPollLoop env addr fuel ep drained).2 = true) := by
  induction fuel generalizing ep drained p with
  | zero => exact ⟨⟨p, hp⟩, id⟩
  | succ fuel ih =>
    rw [rdsRingPollLoop]
    obtain ⟨-, h⟩ | ⟨-, e, q, h, hq⟩ := rdsRingPollSlot_find env hp
    · rw [h]
      exact ⟨⟨p, hp⟩, id⟩
    · rw [h]
      exact ⟨(ih true hq).1, fun _ => (ih true hq).2 rfl⟩

/-- **A pass in which every RDMA operation is accepted leaves no credit owed exactly if**
it found a slot to consume, or none was owed before. -/
theorem rdsRingPollPeer_credit_iff (env : Env) (henv : env.RdmaOk) (ep : Ep) (addr : UInt64)
    (p : Peer) (hp : rdsPeerFind ep addr = some p) :
    (rdsRingPollPeer env ep addr).CreditPaid addr
      ↔ (p.nextSlot ep.cfg.geom.slots).isSome ∨ p.rxCreditSent = p.rxHead := by
  unfold rdsRingPollPeer
  dsimp only
  obtain ⟨fuel, hfuel⟩ := Nat.exists_eq_succ_of_ne_zero ep.cfg.geom.slots_pos.ne'
  rw [hfuel, rdsRingPollLoop]
  obtain ⟨hnone, h⟩ | ⟨hsome, e, q, h, hq⟩ := rdsRingPollSlot_find env hp
  · rw [h, hnone]
    constructor
    · rintro ⟨r, hr, hpaid⟩
      have hr : rdsPeerFind ep addr = some r := hr
      rw [hp] at hr
      cases hr
      exact .inr hpaid
    · intro howed
      exact ⟨p, hp, howed.resolve_left (by simp)⟩
  · rw [h]
    dsimp only
    obtain ⟨⟨r, hr⟩, hdrained⟩ := rdsRingPollLoop_find env addr fuel true hq
    rw [if_pos (hdrained rfl)]
    exact iff_of_true (rdsRingFlushCredit_paid henv hr) (.inl hsome)

/-! ## A credit that is withheld -/

/-- An endpoint with the ring on, whose address vector holds one peer. -/
def creditCfg : EpCfg := EpCfg.standard true [20] 10

/-- A slot with an empty eager message. -/
def eagerSlot : RingSlot := { RingSlot.zero with op := rdsOpEager, gen := 1 }

/-- The socket is full. -/
def fullEnv : Env :=
  { Env.calm (fun calls _ => .ok (UInt64.ofNat calls.length)) with
    sendmsg := fun _ _ => some fiEagain }

/-- The peer shakes hands and sends one message; the pass that consumes it finds the
socket full. -/
def withheldRun : List EpAct :=
  [.recv (Env.calm (fun calls _ => .ok (UInt64.ofNat calls.length))) 20
      ((ctrlHdr rdsOpRingReq).encode ++ (RingInfo.mk 7 8 16 1024).encode),
    .landSlot 0 0 eagerSlot, .poll fullEnv 0, .flush fullEnv 0]

/-- Had the socket been willing, the pass would have left nothing owed. -/
theorem first_pass_pays :
    let ep := Ep.after creditCfg (Domain.opened false (some 3) 0 0) (withheldRun.take 2)
    let env := Env.calm (fun calls _ => .ok (UInt64.ofNat calls.length))
    ∃ p, rdsPeerFind ep 0 = some p ∧ p.state = .ready
      ∧ (rdsRingPollPeer env ep 0).CreditPaid 0 := by
  intro ep env
  have hstate : (rdsPeerFind ep 0).map
      (fun p => (p.state, (p.nextSlot ep.cfg.geom.slots).isSome)) = some (.ready, true) := by
    decide +kernel
  obtain ⟨p, hp, hnext⟩ := Option.map_eq_some_iff.mp hstate
  obtain ⟨hready, hslot⟩ := Prod.mk.inj hnext
  have henv : env.RdmaOk := fun _ _ => rfl
  exact ⟨p, hp, hready, (rdsRingPollPeer_credit_iff env henv ep 0 p hp).mpr (.inl hslot)⟩

/-- **A refused credit is withheld.** One message was consumed and its credit refused. The
next pass finds the socket willing and returns nothing. -/
theorem refused_credit_is_withheld :
    let ep := Ep.after creditCfg (Domain.opened false (some 3) 0 0) withheldRun
    let env := Env.calm (fun calls _ => .ok (UInt64.ofNat calls.length))
    Ep.Runs creditCfg (Domain.opened false (some 3) 0 0) withheldRun
      ∧ (rdsPeerFind ep 0).map Peer.state = some .ready
      ∧ env.RdmaOk
      ∧ ¬ (rdsRingPollPeer env ep 0).CreditPaid 0 := by
  intro ep env
  refine ⟨by decide +kernel, by decide +kernel, fun _ _ => rfl, ?_⟩
  rintro ⟨q, hq, hpaid⟩
  have howed : (rdsPeerFind (rdsRingPollPeer env ep 0) 0).map
      (fun q => (q.rxCreditSent, q.rxHead)) = some (0, 1) := by decide +kernel
  rw [hq] at howed
  obtain ⟨hsent, hhead⟩ := Prod.mk.inj (Option.some.inj howed)
  rw [hsent, hhead] at hpaid
  exact absurd hpaid (by decide)
