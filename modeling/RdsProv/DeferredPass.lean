import RdsProv.Accounting
import RdsProv.Holders

/-!
# One pass over the deferred queue

`rds_progress_deferred` walks the queue of parked `FIN`s and reads and retries each
of them, whatever the socket answered for the others: parked operations go to
different peers, and the socket blocks peer by peer. Along the way it removes nodes,
frees the receives it finalizes and appends their `FIN`s to the list it walks.

A pass is described by its *visits*: which operation was retried, what the socket
answered, and what the visit appended to the queue. The visits are the operations
parked at entry, in their order, and then the first of the appended `FIN`s; what
stays parked is what was told to try again, and the `FIN`s the walk did not come to
(`Ep.Covered.loop_walk`). A receive changes by the answers to its own reads and nothing
else (`Ep.Walk.pending`).

Both rest on the count a receive keeps of its parked reads: it is not down to zero
before the last of them was visited, so no read of the pass finds its receive gone.
-/

/-! ## Visits -/

/-- What the socket answers to the retry of a parked operation. -/
def Deferred.attempt (env : Env) (ep : Ep) : Deferred → Ret
  | .fin peer id => (rdsSendFinRaw env ep peer id).2
  | .read peer cookie remoteOff liov id rts =>
    (rdsPostRdma env ep (ReadReq.op ⟨cookie, remoteOff, liov⟩ peer id rts)).2

/-- One round of the walk: the operation retried, the answer, and what was appended
to the queue. -/
structure Visit where
  op : Deferred
  ret : Ret
  parked : List Deferred
  deriving DecidableEq, Repr

namespace Visit

/-- The socket had no room, and the operation stays parked. -/
def blocked (v : Visit) : Bool := v.ret = .err fiEagain

/-- A read of this receive that is no longer parked. -/
def takes (id : UInt64) (v : Visit) : Bool := v.op.readId? = some id && !v.blocked

/-- A read of this receive that went out. -/
def issues (id : UInt64) (v : Visit) : Bool := v.op.readId? = some id && v.ret = .ok

/-- The error of a read of this receive that failed. -/
def error? (id : UInt64) (v : Visit) : Option ℕ :=
  match v.ret with
  | .ok => none
  | .err e => if v.takes id then some e else none

/-- The RDMA operations a visit put in flight. -/
def sent (v : Visit) : List RdmaOp :=
  match v.op, v.ret with
  | .read peer cookie remoteOff liov id rts, .ok =>
    [ReadReq.op ⟨cookie, remoteOff, liov⟩ peer id rts]
  | _, _ => []

end Visit

/-- The visit of an operation, by an endpoint whose queue holds those after it. -/
def Ep.visit (env : Env) (ep : Ep) (d : Deferred) : Visit where
  op := d
  ret := d.attempt env ep
  parked := (rdsRetryDeferred env ep d).1.deferred.drop ep.deferred.length

/-- The visits of `rdsProgressDeferredLoop`. -/
def Ep.visits (env : Env) : ℕ → Ep → List Visit
  | 0, _ => []
  | fuel + 1, ep =>
    match ep.deferred with
    | [] => []
    | d :: todo =>
      let ep := { ep with deferred := todo }
      ep.visit env d :: if todo = [] then [] else visits env fuel (rdsRetryDeferred env ep d).1

/-! ## What a pass makes of a pending operation -/

namespace Pending

/-- The operation after some visits: its reads that are no longer parked are counted
off, those that went out are awaited, and the first error stays. -/
def settle (vs : List Visit) (p : Pending) : Pending :=
  { p with
    segDeferred := p.segDeferred - UInt32.ofNat (vs.countP (Visit.takes p.id))
    segRemaining := p.segRemaining + UInt32.ofNat (vs.countP (Visit.issues p.id))
    error := if p.error = 0 then (vs.findSome? (Visit.error? p.id)).getD 0 else p.error }

/-- The visits took reads of the operation and left it nothing to wait for. -/
def Finished (vs : List Visit) (p : Pending) : Prop :=
  0 < vs.countP (Visit.takes p.id)
    ∧ (p.settle vs).segRemaining = 0 ∧ (p.settle vs).segDeferred = 0

instance (vs : List Visit) (p : Pending) : Decidable (p.Finished vs) :=
  inferInstanceAs (Decidable (_ ∧ _ ∧ _))

/-- What is left of an operation after some visits: nothing, if it was finalized. -/
def outcome (vs : List Visit) (p : Pending) : Option Pending :=
  if p.Finished vs then none else some (p.settle vs)

variable {v : Visit} {vs : List Visit} {p : Pending}

/-- Visits that took no read of the operation leave it alone. -/
theorem settle_of_untaken (h : ∀ v ∈ vs, v.takes p.id = false) : p.settle vs = p := by
  have htakes : vs.countP (Visit.takes p.id) = 0 :=
    List.countP_eq_zero.mpr (fun v hv => by rw [h v hv]; decide)
  have hissues : vs.countP (Visit.issues p.id) = 0 := by
    refine List.countP_eq_zero.mpr (fun v hv hissues => ?_)
    have hfalse := h v hv
    unfold Visit.issues at hissues
    unfold Visit.takes Visit.blocked at hfalse
    simp only [Bool.and_eq_true, decide_eq_true_eq] at hissues
    rw [hissues.1, hissues.2] at hfalse
    simp at hfalse
  have herror : vs.findSome? (Visit.error? p.id) = none := by
    refine List.findSome?_eq_none_iff.mpr (fun v hv => ?_)
    unfold Visit.error?
    rw [h v hv]
    cases v.ret with
    | ok => rfl
    | err e => rfl
  have hsame : (if p.error = 0 then 0 else p.error) = p.error := by
    split
    · exact Eq.symm ‹_›
    · rfl
  unfold settle
  rw [htakes, hissues, herror, Option.getD_none, hsame]
  simp only [show UInt32.ofNat 0 = 0 from rfl, UInt32.sub_zero, UInt32.add_zero]

/-- Errors are not zero. -/
theorem error?_ne_zero {id : UInt64} {e : ℕ} (h : v.error? id = some e) : e ≠ 0 := by
  unfold Visit.error? at h
  cases hret : v.ret with
  | ok =>
    rw [hret] at h
    cases h
  | err e' =>
    rw [hret] at h
    dsimp only at h
    split at h
    · cases h
      exact e'.ne_zero
    · cases h

/-- Visits are settled one after the other. -/
theorem settle_cons (v : Visit) (vs : List Visit) (p : Pending) :
    p.settle (v :: vs) = (p.settle [v]).settle vs := by
  have hsub : ∀ x : UInt32, ∀ a b : ℕ,
      x - UInt32.ofNat (a + b) = x - UInt32.ofNat b - UInt32.ofNat a := by
    intro x a b
    rw [Nat.add_comm, UInt32.ofNat_add]
    simp only [UInt32.sub_eq_add_neg, UInt32.neg_add, UInt32.add_assoc]
  have hadd : ∀ x : UInt32, ∀ a b : ℕ,
      x + UInt32.ofNat (a + b) = x + UInt32.ofNat b + UInt32.ofNat a := by
    intro x a b
    rw [Nat.add_comm, UInt32.ofNat_add, UInt32.add_assoc]
  have hcons : ∀ f : Visit → Bool, (v :: vs).countP f = vs.countP f + [v].countP f := by
    intro f
    rw [List.countP_cons, List.countP_singleton]
  have herror : (if p.error = 0 then ((v :: vs).findSome? (Visit.error? p.id)).getD 0 else p.error)
      = if (p.settle [v]).error = 0 then (vs.findSome? (Visit.error? p.id)).getD 0
        else (p.settle [v]).error := by
    have hone : (p.settle [v]).error
        = if p.error = 0 then ((v.error? p.id).getD 0) else p.error := by
      unfold settle
      rw [List.findSome?_cons, List.findSome?_nil]
      cases v.error? p.id with
      | none => rfl
      | some e => rfl
    rw [hone, List.findSome?_cons]
    by_cases hp : p.error = 0
    · rw [if_pos hp, if_pos hp]
      cases he : v.error? p.id with
      | none => rfl
      | some e => exact (if_neg (error?_ne_zero he)).symm
    · rw [if_neg hp, if_neg hp, if_neg hp]
  unfold settle at herror ⊢
  dsimp only at herror ⊢
  rw [herror, hcons, hcons, hsub, hadd]

/-- An operation that stays pending is still the one it was. -/
theorem same_of_outcome {q : Pending} (h : p.outcome vs = some q) :
    q.peer = p.peer ∧ q.peerId = p.peerId := by
  unfold outcome at h
  split at h
  · cases h
  · cases h
    exact ⟨rfl, rfl⟩

theorem outcome_eq_none_iff : p.outcome vs = none ↔ p.Finished vs := by
  unfold outcome
  split
  · exact iff_of_true rfl ‹_›
  · exact iff_of_false (Option.some_ne_none _) ‹_›

theorem id_of_outcome {q : Pending} (h : p.outcome vs = some q) : q.id = p.id := by
  unfold outcome at h
  split at h
  · cases h
  · cases h
    rfl

theorem outcome_of_untaken (h : ∀ v ∈ vs, v.takes p.id = false) : p.outcome vs = some p := by
  have htakes : vs.countP (Visit.takes p.id) = 0 :=
    List.countP_eq_zero.mpr (fun v hv => by rw [h v hv]; decide)
  unfold outcome
  rw [if_neg (fun hfin => absurd htakes hfin.1.ne'), settle_of_untaken h]

/-- An operation that a visit finalized counted no other read. -/
theorem untaken_of_finished
    (hcount : (v :: vs).countP (fun v => v.op.readId? = some p.id) ≤ p.segDeferred.toNat)
    (hfin : p.Finished [v]) : ∀ w ∈ vs, w.takes p.id = false := by
  have htakes : v.takes p.id = true := by
    have hpos := hfin.1
    rw [List.countP_singleton] at hpos
    by_contra hno
    rw [if_neg hno] at hpos
    exact absurd hpos (Nat.lt_irrefl 0)
  have hown : v.op.readId? = some p.id := by
    unfold Visit.takes at htakes
    simp only [Bool.and_eq_true, decide_eq_true_eq] at htakes
    exact htakes.1
  have hdeferred : p.segDeferred = 1 := by
    have h : p.segDeferred - UInt32.ofNat ([v].countP (Visit.takes p.id)) = 0 := hfin.2.2
    rw [List.countP_singleton, if_pos htakes] at h
    exact (UInt32.sub_eq_iff_eq_add.mp h).trans (UInt32.zero_add _)
  have hzero : vs.countP (fun v => v.op.readId? = some p.id) = 0 := by
    rw [List.countP_cons_of_pos (by simpa using hown), hdeferred] at hcount
    have : UInt32.toNat 1 = 1 := rfl
    omega
  intro w hw
  have hne := List.countP_eq_zero.mp hzero w hw
  unfold Visit.takes
  simp only [decide_eq_true_eq] at hne
  rw [decide_eq_false hne, Bool.false_and]

/-- **A pass is its visits, one after the other**, for an operation that counts the
reads that are visited: it is finalized with the last of them. -/
theorem outcome_cons
    (hcount : (v :: vs).countP (fun v => v.op.readId? = some p.id) ≤ p.segDeferred.toNat) :
    p.outcome (v :: vs) = (p.outcome [v]).bind (outcome vs) := by
  cases htakes : v.takes p.id with
  | false =>
    have hone : ∀ w ∈ [v], w.takes p.id = false := fun w hw => by
      rw [List.mem_singleton.mp hw]
      exact htakes
    have hsettle : p.settle (v :: vs) = p.settle vs := by
      rw [settle_cons, settle_of_untaken hone]
    have hfin : p.Finished (v :: vs) ↔ p.Finished vs := by
      unfold Finished
      rw [hsettle, List.countP_cons_of_neg (by simp [htakes])]
    rw [outcome_of_untaken hone, Option.bind_some]
    unfold outcome
    rw [hsettle]
    exact if_congr hfin rfl rfl
  | true =>
    have hpos : 0 < (v :: vs).countP (Visit.takes p.id) := by
      rw [List.countP_cons_of_pos htakes]
      exact Nat.succ_pos _
    have hpos₁ : 0 < [v].countP (Visit.takes p.id) := by
      rw [List.countP_cons_of_pos htakes]
      exact Nat.succ_pos _
    by_cases hfin : p.Finished [v]
    · have hrest : ∀ w ∈ vs, w.takes p.id = false := untaken_of_finished hcount hfin
      have hsame : (p.settle [v]).settle vs = p.settle [v] := settle_of_untaken hrest
      unfold outcome
      rw [if_pos hfin, if_pos ⟨hpos, by rw [settle_cons, hsame]; exact hfin.2⟩]
      rfl
    · have hlive : ¬ ((p.settle [v]).segRemaining = 0 ∧ (p.settle [v]).segDeferred = 0) :=
        fun h => hfin ⟨hpos₁, h⟩
      have hiff : p.Finished (v :: vs) ↔ (p.settle [v]).Finished vs := by
        constructor
        · rintro ⟨-, hzero⟩
          rw [settle_cons] at hzero
          refine ⟨Nat.pos_of_ne_zero (fun hnone => hlive ?_), hzero⟩
          have hrest : ∀ w ∈ vs, w.takes (p.settle [v]).id = false := fun w hw => by
            simpa using List.countP_eq_zero.mp hnone w hw
          rw [settle_of_untaken hrest] at hzero
          exact hzero
        · rintro ⟨-, hzero⟩
          rw [← settle_cons] at hzero
          exact ⟨hpos, hzero⟩
      have hstep : p.outcome [v] = some (p.settle [v]) := if_neg hfin
      rw [hstep, Option.bind_some]
      unfold outcome
      rw [settle_cons]
      exact if_congr hiff rfl rfl

end Pending

/-! ## One visit -/

/-- **Every parked read has its receive**, which counts the reads parked for it. -/
structure Ep.Covered (ep : Ep) : Prop where
  distinct : (ep.pending.map Pending.id).Nodup
  counted : ∀ d ∈ ep.deferred, ∀ id, d.readId? = some id →
    ∃ p ∈ ep.pending, p.id = id ∧ ep.parkedReads id ≤ p.segDeferred.toNat

/-- The accounts of an endpoint say so. -/
theorem Ep.Accounted.covered {ep : Ep} (h : ep.Accounted) : ep.Covered where
  distinct := h.distinct
  counted d hd id hid := by
    obtain ⟨p, hfind, htype, -⟩ := h.parkedOwned d hd id hid
    have hp : p ∈ ep.pending := List.mem_of_find?_eq_some hfind
    have hpid : p.id = id := by simpa using List.find?_some hfind
    refine ⟨p, hp, hpid, ?_⟩
    rw [h.deferred p hp htype, hpid]

/-- What a visit does to an endpoint whose queue holds what comes after. -/
structure Ep.Visited (ep : Ep) (v : Visit) (r : Ep × Bool) : Prop where
  stays : r.2 = v.blocked
  deferred : r.1.deferred = ep.deferred ++ v.parked
  pending : r.1.pending = ep.pending.filterMap (Pending.outcome [v])
  inflight : r.1.inflight = ep.inflight ++ v.sent
  /-- It appends the `FIN` of a receive it finalized, if anything. -/
  fins : v.parked = [] ∨ ∃ p ∈ ep.pending, v.op.readId? = some p.id
    ∧ p.outcome [v] = none ∧ v.parked = [.fin p.peer p.peerId]

namespace Ep.Visited

variable {env : Env} {ep : Ep}

/-- What a retry returned says which visit it was. -/
theorem visit_eq {d : Deferred} {ret : Ret} {parked : List Deferred} {r : Ep × Bool}
    (hr : rdsRetryDeferred env ep d = r) (hret : d.attempt env ep = ret)
    (hparked : r.1.deferred = ep.deferred ++ parked) : ep.visit env d = ⟨d, ret, parked⟩ := by
  unfold Ep.visit
  rw [hr, hret, hparked, List.drop_left]

/-- Visits of others leave the pending operations alone. -/
theorem filterMap_outcome {v : Visit} (hv : ∀ p ∈ ep.pending, v.takes p.id = false) :
    ep.pending.filterMap (Pending.outcome [v]) = ep.pending := by
  have hkeep : ∀ p ∈ ep.pending, p.outcome [v] = some p := fun p hp =>
    Pending.outcome_of_untaken (fun w hw => by
      rw [List.mem_singleton.mp hw]
      exact hv p hp)
  rw [List.filterMap_congr hkeep, List.filterMap_some]

theorem fin (env : Env) (ep : Ep) (peer : SockAddr) (id : UInt64) :
    ep.Visited (ep.visit env (.fin peer id)) (rdsRetryDeferred env ep (.fin peer id)) := by
  obtain ⟨ret, e, hraw⟩ : ∃ ret e, rdsSendFinRaw env ep peer id = (e, ret) := ⟨_, _, rfl⟩
  have he : e.deferred = ep.deferred ∧ e.pending = ep.pending ∧ e.inflight = ep.inflight := by
    obtain ⟨-, h⟩ | ⟨_, _, -, -, h⟩ := ep.sendDgram_cases env peer (finHdr id).encode
    · cases hraw.symm.trans h
      exact ⟨rfl, rfl, rfl⟩
    · cases hraw.symm.trans h
      exact ⟨rfl, rfl, rfl⟩
  have hret : Deferred.attempt env ep (.fin peer id) = ret := congrArg Prod.snd hraw
  obtain ⟨r, hr⟩ : ∃ r, rdsRetryDeferred env ep (.fin peer id) = r := ⟨_, rfl⟩
  have hr₁ : r.1.deferred = ep.deferred ∧ r.1.pending = ep.pending ∧ r.1.inflight = ep.inflight
      ∧ r.2 = decide (ret = .err fiEagain) := by
    rw [rdsRetryDeferred, hraw] at hr
    cases ret with
    | ok =>
      cases hr
      exact ⟨he.1, he.2.1, he.2.2, rfl⟩
    | err err =>
      dsimp only at hr
      by_cases hagain : err = fiEagain
      · rw [if_pos hagain] at hr
        cases hr
        exact ⟨he.1, he.2.1, he.2.2, by rw [hagain]; rfl⟩
      · rw [if_neg hagain] at hr
        cases hr
        exact ⟨he.1, he.2.1, he.2.2, (decide_eq_false (fun h => hagain (Ret.err.inj h))).symm⟩
  obtain ⟨hdeferred, hpending, hinflight, hstays⟩ := hr₁
  rw [visit_eq hr hret (hdeferred.trans (List.append_nil _).symm), hr]
  refine ⟨hstays, hdeferred.trans (List.append_nil _).symm, ?_,
    hinflight.trans (List.append_nil _).symm, .inl rfl⟩
  rw [hpending, filterMap_outcome (fun p _ => rfl)]

/-- What the retry of a read makes of its receive is what the visit makes of it. -/
theorem settle_read {d : Deferred} {p : Pending} (hown : d.readId? = some p.id)
    (parked : List Deferred) :
    p.settle [⟨d, .ok, parked⟩] = { p with
        segDeferred := p.segDeferred - 1, segRemaining := p.segRemaining + 1 }
      ∧ ∀ e : ℕ+, e ≠ fiEagain → p.settle [⟨d, .err e, parked⟩]
        = ({ p with segDeferred := p.segDeferred - 1 } : Pending).fail e := by
  have hsame : (if p.error = 0 then 0 else p.error) = p.error := by
    split
    · exact Eq.symm ‹_›
    · rfl
  constructor
  · have htakes : [(⟨d, .ok, parked⟩ : Visit)].countP (Visit.takes p.id) = 1 := by
      simp [Visit.takes, Visit.blocked, hown]
    have hissues : [(⟨d, .ok, parked⟩ : Visit)].countP (Visit.issues p.id) = 1 := by
      simp [Visit.issues, hown]
    have herror : [(⟨d, .ok, parked⟩ : Visit)].findSome? (Visit.error? p.id) = none := rfl
    unfold Pending.settle
    rw [htakes, hissues, herror, Option.getD_none, hsame]
    rfl
  · intro e he
    have htakes : [(⟨d, .err e, parked⟩ : Visit)].countP (Visit.takes p.id) = 1 := by
      simp [Visit.takes, Visit.blocked, hown, he]
    have hissues : [(⟨d, .err e, parked⟩ : Visit)].countP (Visit.issues p.id) = 0 := by
      simp [Visit.issues]
    have herror : [(⟨d, .err e, parked⟩ : Visit)].findSome? (Visit.error? p.id) = some e.val := by
      simp [Visit.error?, Visit.takes, Visit.blocked, hown, he]
    unfold Pending.settle Pending.fail
    rw [htakes, hissues, herror, Option.getD_some]
    dsimp only
    rw [show UInt32.ofNat 0 = 0 from rfl, UInt32.add_zero]
    split
    · rfl
    · rfl

/-- Finalizing a receive puts nothing in flight. -/
theorem inflight_finalize (env : Env) (ep : Ep) (p : Pending) :
    (rdsRndzvRxFinalize env ep p).inflight = ep.inflight := by
  obtain ⟨e, cqes, hout, heq, -⟩ := rdsRndzvRxFinalize_cases env ep p
  have hinflight : (rdsRndzvRxFinalize env ep p).inflight
      = (rdsSendFin env ep p.peer p.peerId).inflight := by
    rw [heq]
    exact hout.inflight
  rw [hinflight]
  obtain h | h | ⟨-, t, h⟩ := rdsSendFin_cases env ep p.peer p.peerId
  · rw [h]
  · rw [h]
  · rw [h]

/-- **A visit that takes a read changes the operation it belongs to, and no other.** -/
theorem filterMap_outcome_takes (hdistinct : (ep.pending.map Pending.id).Nodup) {v : Visit}
    {p : Pending} (hfind : rdsPendingFind ep p.id = some p) (hown : v.op.readId? = some p.id)
    (hblocked : v.blocked = false) :
    ep.pending.filterMap (Pending.outcome [v])
      = if (p.settle [v]).segRemaining = 0 ∧ (p.settle [v]).segDeferred = 0 then
          ep.pending.eraseP (·.id == p.id)
        else ep.pending.modifyFirst (·.id == p.id) (fun _ => p.settle [v]) := by
  have hother : ∀ x : Pending, x.id ≠ p.id → x.outcome [v] = some x := by
    intro x hx
    refine Pending.outcome_of_untaken (fun w hw => ?_)
    rw [List.mem_singleton.mp hw, Visit.takes, hown]
    simp [Ne.symm hx]
  have hone : 0 < List.countP (Visit.takes p.id) [v] := by
    rw [List.countP_singleton, if_pos (by simp [Visit.takes, hown, hblocked])]
    exact Nat.one_pos
  rw [List.filterMap_key hdistinct hfind hother]
  by_cases hzero : (p.settle [v]).segRemaining = 0 ∧ (p.settle [v]).segDeferred = 0
  · rw [if_pos hzero, show p.outcome [v] = none from if_pos ⟨hone, hzero⟩]
  · rw [if_neg hzero, show p.outcome [v] = some (p.settle [v]) from if_neg (fun h => hzero h.2)]

/-- **A read that was not told to try again is counted by its receive**, which is
then finalized or stored. -/
theorem rdsRetryRead_counts {peer : SockAddr} {r : ReadReq} {id rts : UInt64} {p : Pending}
    (hfind : rdsPendingFind ep id = some p) {e : Ep} {ret : Ret}
    (hpost : rdsPostRdma env ep (r.op peer id rts) = (e, ret)) (hagain : ret ≠ .err fiEagain)
    {d : Deferred} (hown : d.readId? = some p.id) :
    ∃ l q, rdsRetryRead env ep peer r id rts
        = (if q.segRemaining = 0 ∧ q.segDeferred = 0 then
            ((rdsRndzvRxFinalize env { e with trace := e.trace ++ l } q).unlinkPending q.id, false)
          else (({ e with trace := e.trace ++ l } : Ep).storePending q, false))
      ∧ (∀ ev ∈ l, ev = .underflow id ∨ ev = .readFail p.id)
      ∧ ∀ parked, q = p.settle [⟨d, ret, parked⟩] := by
  rw [rdsRetryRead, hfind]
  dsimp only
  rw [hpost]
  dsimp only
  rw [if_neg hagain]
  obtain ⟨l, hl, he₀⟩ : ∃ l, (∀ ev ∈ l, ev = Event.underflow id)
      ∧ (if p.segDeferred = 0 then e.log (.underflow id) else e)
        = { e with trace := e.trace ++ l } := by
    split
    · exact ⟨[.underflow id], by simp, rfl⟩
    · exact ⟨[], by simp, by rw [List.append_nil]⟩
  rw [he₀]
  cases ret with
  | ok =>
    exact ⟨l, _, rfl, fun ev hev => .inl (hl ev hev),
      fun parked => (settle_read hown parked).1.symm⟩
  | err err =>
    have herr : err ≠ fiEagain := fun h => hagain (congrArg Ret.err h)
    refine ⟨l ++ [.readFail p.id], _, ?_, ?_,
      fun parked => ((settle_read hown parked).2 err herr).symm⟩
    · rw [← List.append_assoc]
      rfl
    · intro ev hev
      obtain hev | hev := List.mem_append.mp hev
      · exact .inl (hl ev hev)
      · exact .inr (List.mem_singleton.mp hev)

/-- A read that finds its receive. -/
theorem read (hdistinct : (ep.pending.map Pending.id).Nodup) {peer : SockAddr}
    {cookie remoteOff : UInt64} {liov : List Iovec} {rts : UInt64} {p : Pending}
    (hfind : rdsPendingFind ep p.id = some p) :
    ep.Visited (ep.visit env (.read peer cookie remoteOff liov p.id rts))
      (rdsRetryDeferred env ep (.read peer cookie remoteOff liov p.id rts)) := by
  generalize hd : Deferred.read peer cookie remoteOff liov p.id rts = d
  have hown : d.readId? = some p.id := by
    rw [← hd]
    rfl
  obtain ⟨ret, e, hpost⟩ : ∃ ret e, rdsPostRdma env ep
      (ReadReq.op ⟨cookie, remoteOff, liov⟩ peer p.id rts) = (e, ret) := ⟨_, _, rfl⟩
  have hret : d.attempt env ep = ret := by
    rw [← hd]
    exact congrArg Prod.snd hpost
  obtain ⟨hdeferred, hpending, hinflight⟩ : e.deferred = ep.deferred ∧ e.pending = ep.pending
      ∧ ∀ parked, e.inflight = ep.inflight ++ Visit.sent ⟨d, ret, parked⟩ := by
    rw [← hd]
    obtain ⟨-, h⟩ | ⟨_, _, -, -, h⟩ | ⟨-, -, h⟩ | ⟨-, hn, -⟩ :=
      rdsPostRdma_cases env ep (ReadReq.op ⟨cookie, remoteOff, liov⟩ peer p.id rts)
    · cases hpost.symm.trans h
      exact ⟨rfl, rfl, fun _ => (List.append_nil _).symm⟩
    · cases hpost.symm.trans h
      exact ⟨rfl, rfl, fun _ => (List.append_nil _).symm⟩
    · cases hpost.symm.trans h
      exact ⟨rfl, rfl, fun _ => rfl⟩
    · cases hn
  obtain ⟨r, hr⟩ : ∃ r, rdsRetryDeferred env ep d = r := ⟨_, rfl⟩
  have hread : rdsRetryRead env ep peer ⟨cookie, remoteOff, liov⟩ p.id rts = r := by
    rw [← hr, ← hd]
    rfl
  rw [hr]
  by_cases hagain : ret = .err fiEagain
  · rw [rdsRetryRead, hfind] at hread
    dsimp only at hread
    rw [hpost] at hread
    dsimp only at hread
    rw [if_pos hagain] at hread
    subst hread hagain
    rw [visit_eq hr hret (hdeferred.trans (List.append_nil _).symm)]
    refine ⟨rfl, hdeferred.trans (List.append_nil _).symm, ?_, hinflight _, .inl rfl⟩
    rw [filterMap_outcome (fun p _ => by simp [Visit.takes, Visit.blocked])]
    exact hpending
  obtain ⟨l, q, heq, -, hq⟩ := rdsRetryRead_counts hfind hpost hagain hown
  obtain ⟨e₁, he₁, hdeferred₁, hpending₁, hinflight₁⟩ :
      ∃ e₁, ({ e with trace := e.trace ++ l } : Ep) = e₁ ∧ e₁.deferred = e.deferred
        ∧ e₁.pending = e.pending ∧ e₁.inflight = e.inflight :=
    ⟨_, rfl, rfl, rfl, rfl⟩
  rw [he₁] at heq
  have hqp : q.id = p.id ∧ q.peer = p.peer ∧ q.peerId = p.peerId := by
    rw [hq []]
    exact ⟨rfl, rfl, rfl⟩
  have hstays : ∀ parked, Visit.blocked ⟨d, ret, parked⟩ = false := by
    intro parked
    simp [Visit.blocked, hagain]
  have hpend := fun parked => filterMap_outcome_takes (v := ⟨d, ret, parked⟩) hdistinct hfind hown
    (hstays parked)
  rw [heq] at hread
  by_cases hzero : q.segRemaining = 0 ∧ q.segDeferred = 0
  · rw [if_pos hzero] at hread
    have hfinal : (rdsRndzvRxFinalize env e₁ q).pending = e₁.pending :=
      (Ep.Fixed.finalize env e₁ q).pending
    have hdone : ∀ parked, r.1.deferred = ep.deferred ++ parked →
        (parked = [] ∨ parked = [.fin p.peer p.peerId]) → ep.Visited (ep.visit env d) r := by
      intro parked hparked hfin
      have hnone : p.outcome [⟨d, ret, parked⟩] = none := by
        refine if_pos ⟨?_, by rw [← hq parked]; exact hzero⟩
        rw [List.countP_singleton, if_pos (by simp [Visit.takes, hown, hstays parked])]
        exact Nat.one_pos
      rw [visit_eq hr hret hparked]
      subst hread
      refine ⟨(hstays parked).symm, hparked, ?_,
        (inflight_finalize env e₁ q).trans (hinflight₁.trans (hinflight parked)),
        hfin.imp_right (fun h => ⟨p, List.mem_of_find?_eq_some hfind, hown, hnone, h⟩)⟩
      rw [hpend parked, ← hq parked, if_pos hzero, ← hqp.1, ← hpending, ← hpending₁, ← hfinal]
      rfl
    obtain h | h := deferred_finalize env e₁ q
    · refine hdone [] ?_ (.inl rfl)
      rw [← hread, List.append_nil, ← hdeferred, ← hdeferred₁]
      exact h
    · refine hdone [.fin p.peer p.peerId] ?_ (.inr rfl)
      rw [← hread, ← hqp.2.1, ← hqp.2.2, ← hdeferred, ← hdeferred₁]
      exact h
  · rw [if_neg hzero] at hread
    subst hread
    have hparked : (e₁.storePending q).deferred = ep.deferred ++ [] := by
      rw [List.append_nil]
      exact hdeferred₁.trans hdeferred
    rw [visit_eq hr hret hparked]
    refine ⟨(hstays []).symm, hparked, ?_, hinflight₁.trans (hinflight []), .inl rfl⟩
    rw [hpend [], ← hq [], if_neg hzero, ← hqp.1, ← hpending, ← hpending₁]
    rfl

end Ep.Visited

namespace Ep.Covered

variable {env : Env} {ep : Ep}

/-- The receive of a parked read is the one that a search for it finds. -/
theorem find (h : ep.Covered) {p : Pending} (hp : p ∈ ep.pending) :
    rdsPendingFind ep p.id = some p := by
  have hsome : (rdsPendingFind ep p.id).isSome := List.find?_isSome.mpr ⟨p, hp, by simp⟩
  obtain ⟨q, hq⟩ := Option.isSome_iff_exists.mp hsome
  have hid : q.id = p.id := by simpa using List.find?_some hq
  rw [hq, List.inj_on_of_nodup_map h.distinct (List.mem_of_find?_eq_some hq) hp hid]

theorem visited (env : Env) (h : ep.Covered) {d : Deferred} {todo : List Deferred}
    (htodo : ep.deferred = d :: todo) :
    ({ ep with deferred := todo } : Ep).Visited (({ ep with deferred := todo } : Ep).visit env d)
      (rdsRetryDeferred env { ep with deferred := todo } d) := by
  cases d with
  | fin peer id => exact .fin env _ peer id
  | read peer cookie remoteOff liov id rts =>
    obtain ⟨p, hp, rfl, -⟩ := h.counted _ (htodo ▸ List.mem_cons_self) id rfl
    refine Visited.read ?_ ?_
    · exact h.distinct
    · exact h.find hp

/-- An operation counts the reads of it that are parked. -/
theorem parkedReads_le (h : ep.Covered) {p : Pending} (hp : p ∈ ep.pending) :
    ep.parkedReads p.id ≤ p.segDeferred.toNat := by
  obtain hzero | hpos := Nat.eq_zero_or_pos (ep.parkedReads p.id)
  · rw [hzero]
    exact Nat.zero_le _
  · obtain ⟨d, hd, hown⟩ := List.countP_pos_iff.mp hpos
    obtain ⟨q, hq, hid, hle⟩ := h.counted d hd p.id (by simpa using hown)
    rw [← List.inj_on_of_nodup_map h.distinct hq hp hid]
    rw [hid]
    exact hle

/-- **A visit leaves the parked reads covered**: a receive that still has some was
not finalized. -/
theorem next (h : ep.Covered) {v : Visit} {todo : List Deferred}
    (htodo : ep.deferred = v.op :: todo) {r : Ep × Bool}
    (hr : ({ ep with deferred := todo } : Ep).Visited v r) : r.1.Covered where
  distinct := by
    rw [hr.pending]
    refine h.distinct.sublist (List.map_filterMap_sublist (fun p q hq => ?_) ep.pending)
    exact Pending.id_of_outcome hq
  counted d hd id hid := by
    have hd : d ∈ todo := by
      rw [hr.deferred, List.mem_append] at hd
      obtain hd | hd := hd
      · exact hd
      · obtain hnil | ⟨p, -, -, -, hfin⟩ := hr.fins
        · rw [hnil] at hd
          cases hd
        · rw [hfin, List.mem_singleton] at hd
          rw [hd] at hid
          cases hid
    obtain ⟨p, hp, rfl, hle⟩ := h.counted d (htodo ▸ List.mem_cons_of_mem _ hd) id hid
    -- the reads after the visit are those before, without the one visited
    have hrest : r.1.parkedReads p.id = todo.countP (·.readId? = some p.id) := by
      unfold Ep.parkedReads
      rw [hr.deferred, List.countP_append, Nat.add_eq_left, List.countP_eq_zero]
      intro f hf
      obtain hnil | ⟨p', -, -, -, hfin⟩ := hr.fins
      · rw [hnil] at hf
        cases hf
      · rw [hfin, List.mem_singleton] at hf
        rw [hf]
        simp [Deferred.readId?]
    have hpos : 0 < todo.countP (·.readId? = some p.id) :=
      List.countP_pos_iff.mpr ⟨d, hd, by simpa using hid⟩
    have hbefore : ep.parkedReads p.id = todo.countP (·.readId? = some p.id)
        + if v.op.readId? = some p.id then 1 else 0 := by
      unfold Ep.parkedReads
      rw [htodo, List.countP_cons]
      simp
    have htaken : [v].countP (Visit.takes p.id) ≤ if v.op.readId? = some p.id then 1 else 0 := by
      rw [List.countP_singleton]
      by_cases hown : v.op.readId? = some p.id
      · rw [if_pos hown]
        split
        · exact le_rfl
        · exact Nat.zero_le _
      · rw [if_neg hown, if_neg (by simp [Visit.takes, hown])]
    have hcount : todo.countP (·.readId? = some p.id) ≤ (p.settle [v]).segDeferred.toNat := by
      have hsum : todo.countP (·.readId? = some p.id) + [v].countP (Visit.takes p.id)
          ≤ p.segDeferred.toNat := (Nat.add_le_add_left htaken _).trans (hbefore ▸ hle)
      have hnat : (UInt32.ofNat ([v].countP (Visit.takes p.id))).toNat
          = [v].countP (Visit.takes p.id) :=
        UInt32.toNat_ofNat_of_lt'
          (((Nat.le_add_left _ _).trans hsum).trans_lt p.segDeferred.toNat_lt_size)
      have hsub : (p.settle [v]).segDeferred.toNat
          = p.segDeferred.toNat - [v].countP (Visit.takes p.id) := by
        refine (UInt32.toNat_sub_of_le _ _ ?_).trans (by rw [hnat])
        rw [UInt32.le_iff_toNat_le, hnat]
        exact (Nat.le_add_left _ _).trans hsum
      rw [hsub]
      exact Nat.le_sub_of_add_le hsum
    refine ⟨p.settle [v], ?_, rfl, hrest ▸ hcount⟩
    rw [hr.pending, List.mem_filterMap]
    refine ⟨p, hp, if_neg (fun hfin => ?_)⟩
    rw [hfin.2.2] at hcount
    exact absurd hcount (Nat.not_le.mpr hpos)

end Ep.Covered

/-! ## The walk -/

/-- **The visits of a walk**, and the endpoint it ends in. It ends with the last
operation of the queue, also where the visit of that one appends to it. -/
inductive Ep.Walk (env : Env) : Ep → List Visit → Ep → Prop
  | none {ep : Ep} (htodo : ep.deferred = []) : Walk env ep [] ep
  | last {ep : Ep} {v : Visit} {r : Ep × Bool} (htodo : ep.deferred = [v.op])
      (hr : ({ ep with deferred := [] } : Ep).Visited v r) : Walk env ep [v] r.1
  | next {ep ep' : Ep} {v : Visit} {vs : List Visit} {r : Ep × Bool} {todo : List Deferred}
      (htodo : ep.deferred = v.op :: todo)
      (hr : ({ ep with deferred := todo } : Ep).Visited v r) (hrest : Walk env r.1 vs ep') :
      Walk env ep (v :: vs) ep'

/-- How many visits a queue can take: a read may leave a `FIN` behind it. -/
def visitsOf (queue : List Deferred) : ℕ := queue.length + queue.countP (·.readId? ≠ none)

theorem visitsOf_append (a b : List Deferred) : visitsOf (a ++ b) = visitsOf a + visitsOf b := by
  unfold visitsOf
  rw [List.length_append, List.countP_append]
  omega

theorem visitsOf_le (queue : List Deferred) : visitsOf queue ≤ 2 * queue.length := by
  unfold visitsOf
  have hle := List.countP_le_length (l := queue) (p := fun d => d.readId? ≠ none)
  omega

namespace Ep.Covered

variable {env : Env} {ep : Ep}

/-- A visit leaves fewer visits to make. -/
theorem visitsOf_next {v : Visit} {r : Ep × Bool} {todo : List Deferred}
    (hr : ({ ep with deferred := todo } : Ep).Visited v r) :
    visitsOf r.1.deferred + 1 ≤ visitsOf (v.op :: todo) := by
  have hdeferred : r.1.deferred = todo ++ v.parked := hr.deferred
  have hcons : visitsOf (v.op :: todo) = visitsOf [v.op] + visitsOf todo :=
    visitsOf_append [v.op] todo
  rw [hdeferred, visitsOf_append, hcons, Nat.add_comm (visitsOf [v.op]), Nat.add_assoc]
  refine Nat.add_le_add_left ?_ _
  obtain hnil | ⟨p, -, hown, -, hfin⟩ := hr.fins
  · rw [hnil]
    exact Nat.le_add_right 1 _
  · have htwo : visitsOf [v.op] = 2 := by
      rw [visitsOf, List.countP_singleton, if_pos (by simp [hown])]
      rfl
    rw [hfin, htwo]
    exact le_rfl

/-- **The loop is the walk**, given enough fuel for its visits: it stays parked what
was told to try again. -/
theorem loop_walk (env : Env) (h : ep.Covered) {fuel : ℕ} (hfuel : visitsOf ep.deferred ≤ fuel)
    (kept : List Deferred) :
    ep.Walk env (ep.visits env fuel) (rdsProgressDeferredLoop env fuel kept ep).1
      ∧ (rdsProgressDeferredLoop env fuel kept ep).2
        = kept ++ ((ep.visits env fuel).filter Visit.blocked).map Visit.op := by
  induction fuel generalizing ep kept with
  | zero =>
    have hnil : ep.deferred = [] :=
      List.eq_nil_of_length_eq_zero (Nat.le_zero.mp ((Nat.le_add_right _ _).trans hfuel))
    exact ⟨.none hnil, (List.append_nil kept).symm⟩
  | succ fuel ih =>
    rw [rdsProgressDeferredLoop, Ep.visits]
    cases htodo : ep.deferred with
    | nil => exact ⟨.none htodo, (List.append_nil kept).symm⟩
    | cons d todo =>
      dsimp only
      have hr := visited env h htodo
      generalize hv : ({ ep with deferred := todo } : Ep).visit env d = v at hr
      have hop : v.op = d := by
        rw [← hv]
        rfl
      subst hop
      generalize rdsRetryDeferred env { ep with deferred := todo } v.op = r at hr
      have hkept : (if r.2 = true then kept ++ [v.op] else kept)
          = kept ++ ([v].filter Visit.blocked).map Visit.op := by
        rw [hr.stays]
        cases hblocked : v.blocked with
        | true => simp [hblocked]
        | false => simp [hblocked]
      by_cases hlast : todo = []
      · rw [if_pos hlast, if_pos hlast]
        subst hlast
        exact ⟨.last htodo hr, hkept⟩
      · rw [if_neg hlast, if_neg hlast]
        have hfuel : visitsOf r.1.deferred ≤ fuel := by
          rw [htodo] at hfuel
          exact Nat.le_of_lt_succ ((visitsOf_next hr).trans hfuel)
        obtain ⟨hwalk, hloop⟩ := ih (h.next htodo hr) hfuel
          (if r.2 = true then kept ++ [v.op] else kept)
        refine ⟨.next htodo hr hwalk, ?_⟩
        rw [hloop, hkept, List.append_assoc, ← List.map_append, ← List.filter_append]
        rfl

/-- More fuel changes nothing. -/
theorem loop_fuel (h : ep.Covered) {fuel : ℕ} (hfuel : visitsOf ep.deferred ≤ fuel)
    (kept : List Deferred) (n : ℕ) :
    rdsProgressDeferredLoop env (fuel + n) kept ep
      = rdsProgressDeferredLoop env fuel kept ep := by
  induction fuel generalizing ep kept with
  | zero =>
    have hnil : ep.deferred = [] :=
      List.eq_nil_of_length_eq_zero (Nat.le_zero.mp ((Nat.le_add_right _ _).trans hfuel))
    cases n with
    | zero => rfl
    | succ n =>
      rw [Nat.zero_add, rdsProgressDeferredLoop, rdsProgressDeferredLoop, hnil]
  | succ fuel ih =>
    rw [Nat.add_right_comm, rdsProgressDeferredLoop, rdsProgressDeferredLoop]
    cases htodo : ep.deferred with
    | nil => rfl
    | cons d todo =>
      dsimp only
      have hr := visited env h htodo
      by_cases hlast : todo = []
      · rw [if_pos hlast, if_pos hlast]
      · rw [if_neg hlast, if_neg hlast]
        refine ih (h.next (v := ({ ep with deferred := todo } : Ep).visit env d) htodo hr) ?_ _
        rw [htodo] at hfuel
        exact Nat.le_of_lt_succ ((visitsOf_next hr).trans hfuel)

end Ep.Covered

namespace Ep.Walk

variable {env : Env} {ep ep' : Ep} {vs : List Visit}

/-- **What is visited, and in which order**: what was parked, and then of the `FIN`s
that were appended the first ones; the queue is left with the others. -/
theorem order (hwalk : ep.Walk env vs ep') :
    ∃ own again, vs = own ++ again ∧ own.map Visit.op = ep.deferred
      ∧ vs.flatMap Visit.parked = again.map Visit.op ++ ep'.deferred := by
  induction hwalk with
  | none htodo => exact ⟨[], [], rfl, htodo.symm, htodo.symm⟩
  | @last ep v r htodo hr =>
    refine ⟨[v], [], rfl, htodo.symm, ?_⟩
    rw [hr.deferred, List.flatMap_singleton]
    rfl
  | @next ep ep' v vs r todo htodo hr hrest ih =>
    obtain ⟨own, again, rfl, hown, hparked⟩ := ih
    have hdeferred : r.1.deferred = todo ++ v.parked := hr.deferred
    rw [hdeferred] at hown
    -- the visits of the appended `FIN` are no longer among those of what was parked
    obtain ⟨own₁, own₂, rfl, hown₁, hown₂⟩ := List.map_eq_append_iff.mp hown
    refine ⟨v :: own₁, own₂ ++ again, ?_, ?_, ?_⟩
    · rw [List.append_assoc]
      rfl
    · rw [List.map_cons, hown₁, htodo]
    · rw [List.flatMap_cons, hparked, List.map_append, hown₂, List.append_assoc]

/-- What is appended is no read. -/
theorem parked_readId? (hwalk : ep.Walk env vs ep') {f : Deferred}
    (hf : f ∈ vs.flatMap Visit.parked) : f.readId? = Option.none := by
  have hone : ∀ {e : Ep} {v : Visit} {r : Ep × Bool}, e.Visited v r → f ∈ v.parked →
      f.readId? = Option.none := by
    intro e v r hr hf
    obtain hnil | ⟨p, -, -, -, hfin⟩ := hr.fins
    · rw [hnil] at hf
      cases hf
    · rw [hfin, List.mem_singleton] at hf
      rw [hf]
      rfl
  induction hwalk with
  | none htodo => cases hf
  | last htodo hr =>
    rw [List.flatMap_singleton] at hf
    exact hone hr hf
  | next htodo hr hrest ih =>
    rw [List.flatMap_cons, List.mem_append] at hf
    exact hf.elim (hone hr) ih

/-- The visits of the reads of an operation are as many as its parked reads. -/
theorem countP_reads (hwalk : ep.Walk env vs ep') (id : UInt64) :
    vs.countP (fun v => v.op.readId? = some id) = ep.parkedReads id := by
  obtain ⟨own, again, hvs, hown, hparked⟩ := hwalk.order
  have hagain : again.countP (fun v => v.op.readId? = some id) = 0 := by
    refine List.countP_eq_zero.mpr (fun v hv => ?_)
    have hmem : v.op ∈ vs.flatMap Visit.parked := by
      rw [hparked]
      exact List.mem_append_left _ (List.mem_map_of_mem hv)
    rw [hwalk.parked_readId? hmem]
    simp
  unfold Ep.parkedReads
  rw [hvs, List.countP_append, hagain, Nat.add_zero, ← hown, List.countP_map]
  rfl

/-- What a walk makes of an operation is what its first visit makes of it, and then
the others. -/
theorem outcome_cons (h : ep.Covered) {v : Visit} (hwalk : ep.Walk env (v :: vs) ep')
    {p : Pending} (hp : p ∈ ep.pending) :
    p.outcome (v :: vs) = (p.outcome [v]).bind (Pending.outcome vs) := by
  refine Pending.outcome_cons ?_
  rw [hwalk.countP_reads p.id]
  exact h.parkedReads_le hp

/-- **What a walk makes of the pending operations** is, for each of them, what the
answers to its own reads make of it; the reads that went out are in flight. -/
theorem pending (h : ep.Covered) (hwalk : ep.Walk env vs ep') :
    ep'.pending = ep.pending.filterMap (Pending.outcome vs)
      ∧ ep'.inflight = ep.inflight ++ vs.flatMap Visit.sent := by
  induction hwalk with
  | none htodo =>
    have hkeep : ∀ p : Pending, p.outcome [] = some p := fun p =>
      Pending.outcome_of_untaken (fun v hv => absurd hv List.not_mem_nil)
    rw [List.filterMap_congr (fun p _ => hkeep p), List.filterMap_some]
    exact ⟨rfl, (List.append_nil _).symm⟩
  | last htodo hr =>
    rw [List.flatMap_singleton]
    exact ⟨hr.pending, hr.inflight⟩
  | @next ep ep' v vs r todo htodo hr hrest ih =>
    obtain ⟨hpending, hinflight⟩ := ih (h.next htodo hr)
    constructor
    · rw [hpending, hr.pending, List.filterMap_filterMap]
      exact List.filterMap_congr (fun p hp => (outcome_cons h (.next htodo hr hrest) hp).symm)
    · rw [hinflight, hr.inflight, List.flatMap_cons, List.append_assoc]

/-- The `FIN`s a walk appends are those of receives it finalized. -/
theorem fins (h : ep.Covered) (hwalk : ep.Walk env vs ep') {f : Deferred}
    (hf : f ∈ vs.flatMap Visit.parked) :
    ∃ p ∈ ep.pending, p.outcome vs = Option.none ∧ f = .fin p.peer p.peerId := by
  have hone : ∀ {e : Ep} {v : Visit} {r : Ep × Bool}, e.Visited v r → f ∈ v.parked →
      ∃ p ∈ e.pending, p.outcome [v] = Option.none ∧ f = .fin p.peer p.peerId := by
    intro e v r hr hf
    obtain hnil | ⟨p, hp, -, hnone, hfin⟩ := hr.fins
    · rw [hnil] at hf
      cases hf
    · rw [hfin, List.mem_singleton] at hf
      exact ⟨p, hp, hnone, hf⟩
  induction hwalk with
  | none htodo => cases hf
  | last htodo hr =>
    rw [List.flatMap_singleton] at hf
    obtain ⟨p, hp, hnone, hfin⟩ := hone hr hf
    exact ⟨p, hp, hnone, hfin⟩
  | @next ep ep' v vs r todo htodo hr hrest ih =>
    have hcons := fun {p : Pending} => outcome_cons (p := p) h (.next htodo hr hrest)
    rw [List.flatMap_cons, List.mem_append] at hf
    obtain hf | hf := hf
    · obtain ⟨p, hp, hnone, hfin⟩ := hone hr hf
      refine ⟨p, hp, ?_, hfin⟩
      rw [hcons hp, hnone]
      rfl
    · -- the receive was pending before the visit, with the same peer
      obtain ⟨q, hq, hnone, hfin⟩ := ih (h.next htodo hr) hf
      rw [hr.pending, List.mem_filterMap] at hq
      obtain ⟨p, hp, hpq⟩ := hq
      have hsame := Pending.same_of_outcome hpq
      refine ⟨p, hp, ?_, by rw [hfin, hsame.1, hsame.2]⟩
      rw [hcons hp, hpq]
      exact hnone

end Ep.Walk

/-! ## The pass -/

/-- **One pass over the deferred queue** terminates. It visits each operation parked
at entry once, in order, and then the first of the `FIN`s that finalized receives
parked meanwhile. Parked afterwards are those that were told to try again, in that
order, and the `FIN`s it did not come to. A receive changes by what was answered to
its own reads, and the reads that went out are in flight. -/
theorem rdsProgressDeferred_pass (env : Env) (ep : Ep) (h : ep.Covered) :
    (∀ n, rdsProgressDeferredLoop env (2 * ep.deferred.length + n) [] ep
      = rdsProgressDeferredLoop env (2 * ep.deferred.length) [] ep)
    ∧ ∃ own again left,
      ep.visits env (2 * ep.deferred.length) = own ++ again
      ∧ own.map Visit.op = ep.deferred
      ∧ (own ++ again).flatMap Visit.parked = again.map Visit.op ++ left
      ∧ (∀ f ∈ again.map Visit.op ++ left, ∃ p ∈ ep.pending,
          p.Finished (own ++ again) ∧ f = .fin p.peer p.peerId)
      ∧ (rdsProgressDeferred env ep).1.deferred
        = (own.filter Visit.blocked).map Visit.op
          ++ ((again.filter Visit.blocked).map Visit.op ++ left)
      ∧ (rdsProgressDeferred env ep).1.pending
        = ep.pending.filterMap (Pending.outcome (own ++ again))
      ∧ (rdsProgressDeferred env ep).1.inflight
        = ep.inflight ++ (own ++ again).flatMap Visit.sent := by
  have hfuel := visitsOf_le ep.deferred
  refine ⟨h.loop_fuel hfuel [], ?_⟩
  obtain ⟨hwalk, hkept⟩ := Ep.Covered.loop_walk env h hfuel []
  obtain ⟨own, again, hvs, hown, hparked⟩ := hwalk.order
  obtain ⟨hpending, hinflight⟩ := hwalk.pending h
  have hfins := fun {f : Deferred} => hwalk.fins (f := f) h
  rw [hvs] at hparked hpending hinflight hkept hfins
  refine ⟨own, again, _, hvs, hown, hparked, fun f hf => ?_, ?_, hpending, hinflight⟩
  · rw [← hparked] at hf
    obtain ⟨p, hp, hnone, hfin⟩ := hfins hf
    exact ⟨p, hp, Pending.outcome_eq_none_iff.mp hnone, hfin⟩
  · rw [rdsProgressDeferred]
    dsimp only
    rw [hkept, List.nil_append, List.filter_append, List.map_append, List.append_assoc]

/-- Two receives whose reads are parked because the socket has no room. -/
def twoParkedReads : List EpAct :=
  let calm := Env.calm (fun _ _ => .error fiEnomem)
  let busy : Env := { calm with sendmsg := fun _ _ => some fiEagain }
  [.postRecv calm [⟨4096, 100⟩] fiAddrUnspec 0 0 7 0 false,
    .postRecv calm [⟨8192, 100⟩] fiAddrUnspec 0 0 8 0 false,
    .recv busy 20 ((rtsHdr false 0 1 0 0 100 5).encode ++ encodeSegs [⟨11, 0, 100⟩]),
    .recv busy 20 ((rtsHdr false 0 1 0 0 100 6).encode ++ encodeSegs [⟨12, 0, 100⟩])]

/-- An endpoint with two parked reads. -/
def withTwoParkedReads : Ep :=
  Ep.after (EpCfg.standard false [10, 20] 10) (Domain.opened false (some 3) 0 0) twoParkedReads

theorem withTwoParkedReads_accounted : withTwoParkedReads.Accounted := by
  have hrun : Ep.Runs (EpCfg.standard false [10, 20] 10) (Domain.opened false (some 3) 0 0)
      twoParkedReads := by decide +kernel
  exact (Ep.Sound.after hrun (by decide +kernel)).accounted

/-- The first read fails for good, and the `FIN` of its receive finds no room and is
parked; the second read finds no room, and the `FIN` then fails for good too. -/
def failingSocket : Env :=
  { Env.calm (fun _ _ => .error fiEnomem) with
    sendmsg := fun t _ => if t = 9 ∨ t = 11 then some fiEagain else some fiEio }

theorem failingSocket_pass :
    withTwoParkedReads.Covered
      ∧ (withTwoParkedReads.visits failingSocket 4).map Visit.ret
        = [.err 5, .err fiEagain, .err 5]
      ∧ ∃ own again left, withTwoParkedReads.visits failingSocket 4 = own ++ again
        ∧ own.map Visit.op = withTwoParkedReads.deferred
        ∧ (rdsProgressDeferred failingSocket withTwoParkedReads).1.deferred
          = (own.filter Visit.blocked).map Visit.op
            ++ ((again.filter Visit.blocked).map Visit.op ++ left) := by
  have hcovered := withTwoParkedReads_accounted.covered
  obtain ⟨-, own, again, left, hvs, hown, -, -, hqueue, -, -⟩ :=
    rdsProgressDeferred_pass failingSocket withTwoParkedReads hcovered
  have hlength : withTwoParkedReads.deferred.length = 2 := by decide +kernel
  rw [hlength] at hvs
  exact ⟨hcovered, by decide +kernel, own, again, left, hvs, hown, hqueue⟩

/-- A `FIN` that was parked in this pass and was not accepted when it was retried in
the same pass is not parked afterwards either: it is lost to the hard error. -/
theorem fin_lost_in_the_pass_that_parked_it :
    withTwoParkedReads.Accounted
      ∧ .fin 20 5 ∈ (withTwoParkedReads.visits failingSocket 4).flatMap Visit.parked
      ∧ (∀ v ∈ withTwoParkedReads.visits failingSocket 4, v.op = .fin 20 5 → v.ret ≠ .ok)
      ∧ .fin 20 5 ∉ (rdsProgressDeferred failingSocket withTwoParkedReads).1.deferred :=
  ⟨withTwoParkedReads_accounted, by decide +kernel, by decide +kernel, by decide +kernel⟩
