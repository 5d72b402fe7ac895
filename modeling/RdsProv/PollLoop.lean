import RdsProv.Credit
import RdsProv.Lib.LapCounter

/-!
# The poll loop ends

The loop of `rds_ring_poll_peer` has no bound of its own: it goes on for as long as the
slot it stands before carries the stamp it waits for. What ends it is that the ring does
not change under it. After one lap it stands before the slot it consumed first, and now
waits for the next stamp, while the slot still has the one it was consumed with. This
holds whatever the ring contains and whatever the counter is, since places and stamps are
those of the count behind the counter.

`rdsRingPollRounds` is the loop without a bound, and `rdsRingPollPeer_ends` says that it is
done after at most as many rounds as the ring has slots; the bound in `rdsRingPollPeer` is
therefore none.
-/

/-- A number of rounds of the loop of `rds_ring_poll_peer`, if each of them finds a slot. -/
def rdsRingPollRounds (env : Env) (addr : UInt64) : ℕ → Ep → Option Ep
  | 0, ep => some ep
  | n + 1, ep => (rdsRingPollSlot env ep addr).bind (rdsRingPollRounds env addr n)

/-- Returning credit moves nothing in the ring. -/
theorem rdsRingReturnCredit_keeps (env : Env) {ep : Ep} {p : Peer}
    (hp : rdsPeerFind ep p.addr = some p) :
    (rdsRingReturnCredit env ep p).cfg = ep.cfg
      ∧ ∃ q, rdsPeerFind (rdsRingReturnCredit env ep p) p.addr = some q
        ∧ q.rxRing = p.rxRing ∧ q.rxHead = p.rxHead := by
  obtain ⟨-, h⟩ | ⟨-, h⟩ := rdsRingReturnCredit_cases env ep p
  · rw [h]
    exact ⟨rfl, _, rdsPeerFind_setPeer_self (q := { p with creditTx := p.rxHead }) hp, rfl, rfl⟩
  · rw [h]
    exact ⟨rfl, _, rdsPeerFind_setPeer_self
      (q := { p with creditTx := p.rxHead, rxCreditSent := p.rxHead }) hp, rfl, rfl⟩

/-- A round that finds nothing. -/
theorem rdsRingPollSlot_eq_none {env : Env} {ep : Ep} {addr : UInt64} {p : Peer}
    (hp : rdsPeerFind ep addr = some p) :
    rdsRingPollSlot env ep addr = none ↔ p.nextSlot ep.cfg.geom.slots = none := by
  obtain ⟨hnone, h⟩ | ⟨hsome, e, q, h, -⟩ := rdsRingPollSlot_find env hp
  · exact iff_of_true h hnone
  · refine iff_of_false (by rw [h]; exact Option.some_ne_none e) (fun hnone => ?_)
    rw [hnone] at hsome
    cases hsome

/-- **One round** leaves the ring as it is and moves on by one slot, whatever becomes of
the credit it returns. -/
theorem rdsRingPollSlot_advances {env : Env} {ep e : Ep} {addr : UInt64} {p : Peer}
    (hp : rdsPeerFind ep addr = some p) (h : rdsRingPollSlot env ep addr = some e) :
    e.cfg = ep.cfg ∧ ∃ q, rdsPeerFind e addr = some q ∧ q.rxRing = p.rxRing
      ∧ q.rxHead = p.rxHead + 1 := by
  obtain ⟨slot, hnext⟩ : ∃ slot, p.nextSlot ep.cfg.geom.slots = some slot := by
    refine Option.ne_none_iff_exists'.mp (fun hnone => ?_)
    rw [(rdsRingPollSlot_eq_none hp).mpr hnone] at h
    cases h
  have hany : ∀ op i, slot.ctrl? = some (op, i) → addr ≠ fiAddrNotavail →
      RingInput.any.hears addr op i := fun _ _ _ _ => trivial
  obtain ⟨d, q, -, hcfg, -, hq, hsteady, hround⟩ := rdsRingPollSlot_ring env hp hnext hany
  have haddr : q.addr = addr := rdsPeerFind_addr hq
  rw [← haddr] at hq
  have hself := rdsPeerFind_setPeer_self (q := { q with rxHead := q.rxHead + 1 }) hq
  have hhead : q.rxHead + 1 = p.rxHead + 1 := by rw [hsteady.rxHead]
  rw [hround, Option.some.injEq] at h
  subst h
  split
  · obtain ⟨hcfg', r, hr, hring, hr'⟩ := rdsRingReturnCredit_keeps env hself
    exact ⟨hcfg'.trans hcfg, r, haddr ▸ hr, hring.trans hsteady.rxRing, hr'.trans hhead⟩
  · rw [← haddr]
    exact ⟨hcfg, { q with rxHead := q.rxHead + 1 }, hself, hsteady.rxRing, hhead⟩

/-- **The rounds of a pass** leave the ring as it is and move on by as many slots. -/
theorem rdsRingPollRounds_advances {env : Env} {addr : UInt64} {n : ℕ} {ep e : Ep} {p : Peer}
    (hp : rdsPeerFind ep addr = some p) (h : rdsRingPollRounds env addr n ep = some e) :
    e.cfg = ep.cfg ∧ ∃ q, rdsPeerFind e addr = some q ∧ q.rxRing = p.rxRing
      ∧ q.rxHead = p.rxHead + UInt64.ofNat n := by
  induction n generalizing ep p with
  | zero =>
    cases h
    exact ⟨rfl, p, hp, rfl, (UInt64.add_zero _).symm⟩
  | succ n ih =>
    obtain ⟨d, hround, hrest⟩ := Option.bind_eq_some_iff.mp h
    obtain ⟨hcfg, q, hq, hring, hhead⟩ := rdsRingPollSlot_advances hp hround
    obtain ⟨hcfg', r, hr, hring', hhead'⟩ := ih hq hrest
    refine ⟨hcfg'.trans hcfg, r, hr, hring'.trans hring, ?_⟩
    rw [hhead', hhead, UInt64.add_assoc, UInt64.add_comm 1, UInt64.ofNat_add]
    rfl

theorem rdsRingPollRounds_succ (env : Env) (addr : UInt64) (n : ℕ) (ep : Ep) :
    rdsRingPollRounds env addr (n + 1) ep
      = (rdsRingPollRounds env addr n ep).bind (rdsRingPollSlot env · addr) := by
  induction n generalizing ep with
  | zero =>
    show (rdsRingPollSlot env ep addr).bind some = rdsRingPollSlot env ep addr
    exact Option.bind_fun_some _
  | succ n ih =>
    calc (rdsRingPollSlot env ep addr).bind (rdsRingPollRounds env addr (n + 1))
        = (rdsRingPollSlot env ep addr).bind
          (fun d => (rdsRingPollRounds env addr n d).bind (rdsRingPollSlot env · addr)) :=
        congrArg _ (funext ih)
      _ = ((rdsRingPollSlot env ep addr).bind (rdsRingPollRounds env addr n)).bind
          (rdsRingPollSlot env · addr) := (Option.bind_assoc _ _ _).symm

/-- **After one lap there is nothing to find**: the slot consumed first is in its place, with
the stamp of the last lap. -/
theorem rdsRingPollRounds_lap {env : Env} {addr : UInt64} {ep e : Ep}
    (h : rdsRingPollRounds env addr ep.cfg.geom.slots.toNat ep = some e) :
    rdsRingPollSlot env e addr = none := by
  obtain ⟨k, hk⟩ := ep.cfg.geom.slots_pow2
  obtain ⟨n, hn⟩ : ∃ n, ep.cfg.geom.slots.toNat = n + 1 :=
    Nat.exists_eq_succ_of_ne_zero (hk ▸ (Nat.two_pow_pos k).ne')
  -- the first round found a slot, so there is a record, and the slot has its stamp
  obtain ⟨d, hfirst, -⟩ : ∃ d, rdsRingPollSlot env ep addr = some d
      ∧ rdsRingPollRounds env addr n d = some e := by
    rw [hn] at h
    exact Option.bind_eq_some_iff.mp h
  cases hp : rdsPeerFind ep addr with
  | none =>
    unfold rdsRingPollSlot at hfirst
    dsimp only at hfirst
    rw [hp] at hfirst
    cases hfirst
  | some p =>
    have hstamp : (p.rxRing (lapPlace ep.cfg.geom.slots p.rxHead)).gen
        = lapStamp ep.cfg.geom.slots p.rxHead := by
      by_contra hne
      have hnone : p.nextSlot ep.cfg.geom.slots = none := if_neg hne
      rw [(rdsRingPollSlot_eq_none hp).mpr hnone] at hfirst
      cases hfirst
    obtain ⟨hcfg, q, hq, hring, hhead⟩ := rdsRingPollRounds_advances hp h
    obtain ⟨hplace, hlap⟩ := lapStamp_add_slots_ne hk p.rxHead
    have hslots : UInt64.ofNat ep.cfg.geom.slots.toNat = ep.cfg.geom.slots.toUInt64 := by
      rw [← UInt32.toNat_toUInt64, UInt64.ofNat_toNat]
    rw [rdsRingPollSlot_eq_none hq, hcfg]
    refine if_neg ?_
    show (q.rxRing (lapPlace ep.cfg.geom.slots q.rxHead)).gen
      ≠ lapStamp ep.cfg.geom.slots q.rxHead
    rw [hhead, hslots, hring, hplace, hstamp]
    exact hlap.symm

/-- A pass either ends within a number of rounds or makes them all. -/
theorem rdsRingPollRounds_ends_or (env : Env) (addr : UInt64) (ep : Ep) (m : ℕ) :
    (∃ n ≤ m, ∃ e, rdsRingPollRounds env addr n ep = some e ∧ rdsRingPollSlot env e addr = none)
      ∨ ∃ e, rdsRingPollRounds env addr m ep = some e := by
  induction m with
  | zero => exact .inr ⟨ep, rfl⟩
  | succ m ih =>
    obtain ⟨n, hn, hends⟩ | ⟨e, he⟩ := ih
    · exact .inl ⟨n, hn.trans (Nat.le_succ m), hends⟩
    · cases hround : rdsRingPollSlot env e addr with
      | none => exact .inl ⟨m, Nat.le_succ m, e, he, hround⟩
      | some d =>
        refine .inr ⟨d, ?_⟩
        rw [rdsRingPollRounds_succ, he]
        exact hround

/-- The bounded loop is the unbounded one as soon as its bound is reached. -/
theorem rdsRingPollLoop_of_rounds {env : Env} {addr : UInt64} {n fuel : ℕ} {ep e : Ep}
    (h : rdsRingPollRounds env addr n ep = some e) (hend : rdsRingPollSlot env e addr = none)
    (hfuel : n ≤ fuel) (drained : Bool) :
    rdsRingPollLoop env addr fuel ep drained = (e, drained || n != 0) := by
  induction n generalizing ep fuel drained with
  | zero =>
    cases h
    rw [show ((0 : ℕ) != 0) = false from rfl, Bool.or_false]
    cases fuel with
    | zero => rfl
    | succ fuel => rw [rdsRingPollLoop, hend]
  | succ n ih =>
    obtain ⟨d, hround, hrest⟩ := Option.bind_eq_some_iff.mp h
    obtain ⟨fuel, rfl⟩ : ∃ m, fuel = m + 1 := Nat.exists_eq_succ_of_ne_zero (by omega)
    rw [rdsRingPollLoop, hround]
    dsimp only
    rw [ih hrest (by omega) true, Bool.true_or]
    exact congrArg _ (Bool.or_true drained).symm

/-- **The poll loop ends**: for every ring, every counter and every answer of the socket to
the credit writes, the loop stands before a slot it does not want after at most as many
rounds as there are slots. Each round delivers one slot, giving the loop more rounds
changes nothing, and `rds_ring_poll_peer` returns with what the last round left. -/
theorem rdsRingPollPeer_ends (env : Env) (ep : Ep) (addr : UInt64) :
    ∃ n ≤ ep.cfg.geom.slots.toNat, ∃ e,
      rdsRingPollRounds env addr n ep = some e
      ∧ rdsRingPollSlot env e addr = none
      ∧ (∀ fuel ≥ n, ∀ drained,
        rdsRingPollLoop env addr fuel ep drained = (e, drained || n != 0))
      ∧ rdsRingPollPeer env ep addr = if n != 0 then rdsRingFlushCredit env e addr else e := by
  have hends : ∃ n ≤ ep.cfg.geom.slots.toNat, ∃ e,
      rdsRingPollRounds env addr n ep = some e ∧ rdsRingPollSlot env e addr = none := by
    obtain hends | ⟨e, he⟩ := rdsRingPollRounds_ends_or env addr ep ep.cfg.geom.slots.toNat
    · exact hends
    · exact ⟨_, le_rfl, e, he, rdsRingPollRounds_lap he⟩
  obtain ⟨n, hn, e, he, hend⟩ := hends
  have hloop : ∀ fuel ≥ n, ∀ drained,
      rdsRingPollLoop env addr fuel ep drained = (e, drained || n != 0) :=
    fun fuel hfuel => rdsRingPollLoop_of_rounds he hend hfuel
  refine ⟨n, hn, e, he, hend, hloop, ?_⟩
  unfold rdsRingPollPeer
  rw [hloop _ hn, Bool.false_or]
