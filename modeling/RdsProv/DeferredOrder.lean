import RdsProv.Finalized

/-!
# The order of the deferred queue

"Parked ops have no ordering requirement among themselves, so reordering is safe":
this is why a pass may go past an operation that was refused. Here the queue is
permuted, the socket gives each parked operation the answer it had, and the `FIN` of
each receive the fate it had, and the two passes are compared.

A pass is its answers. Which receives it finalizes and what it makes of the others are
sums over the answers to their reads (`Pending.settle`), and so are the operations that
stay parked, the reads in flight and the `FIN`s on the wire. Only one thing is not a
sum: a receive with two failed reads keeps the error of the first. Its error is
compared as zero or not (`Pending.verdict`).
-/

/-! ## Answers -/

/-- What was tried in a visit, and what the socket answered. -/
def Visit.answer (v : Visit) : Deferred × Ret := (v.op, v.ret)

/-- The visit of a read. -/
def Visit.isRead (v : Visit) : Bool := v.op.readId?.isSome

/-- An operation with its error as a verdict: whether there is one. -/
def Pending.verdict (p : Pending) : Pending := { p with error := if p.error = 0 then 0 else 1 }

/-- **A pass with these answers**: the parked operations are answered by `zs`, in the
order of the queue, and the `FIN` of a finalized receive has its fate; parked, it is
refused again in the same pass. -/
structure Ep.AnsweredBy (env : Env) (ep : Ep) (zs : List (Deferred × Ret))
    (fate : UInt64 → FinFate) : Prop where
  own : ((ep.visits env (2 * ep.deferred.length)).take ep.deferred.length).map Visit.answer = zs
  again : ∀ v ∈ (ep.visits env (2 * ep.deferred.length)).drop ep.deferred.length,
    v.ret = .err fiEagain
  fins : ∀ x ∈ ep.finalized env (2 * ep.deferred.length), x.2 = fate x.1.id

instance (env : Env) (ep : Ep) (zs : List (Deferred × Ret)) (fate : UInt64 → FinFate) :
    Decidable (ep.AnsweredBy env zs fate) :=
  decidable_of_iff
    (((ep.visits env (2 * ep.deferred.length)).take ep.deferred.length).map Visit.answer = zs
      ∧ (∀ v ∈ (ep.visits env (2 * ep.deferred.length)).drop ep.deferred.length,
          v.ret = .err fiEagain)
      ∧ ∀ x ∈ ep.finalized env (2 * ep.deferred.length), x.2 = fate x.1.id)
    ⟨fun h => ⟨h.1, h.2.1, h.2.2⟩, fun h => ⟨h.own, h.again, h.fins⟩⟩

/-! ## What the answers make of an operation -/

/-- The answers to reads. -/
def readAnswers (vs : List Visit) : List (Deferred × Ret) :=
  (vs.filter Visit.isRead).map Visit.answer

/-- What only concerns reads is counted over the answers to them. -/
theorem countP_readAnswers {f : Visit → Bool} (hread : ∀ v, f v = true → v.isRead = true)
    (hparked : ∀ v, f v = f ⟨v.op, v.ret, []⟩) (vs : List Visit) :
    vs.countP f = (readAnswers vs).countP (fun z => f ⟨z.1, z.2, []⟩) := by
  unfold readAnswers
  rw [List.countP_map, List.countP_filter]
  refine List.countP_congr (fun v _ => ?_)
  have hanswer : f ⟨v.answer.1, v.answer.2, []⟩ = f v := (hparked v).symm
  simp only [Function.comp_apply, hanswer, Bool.and_eq_true]
  exact ⟨fun h => ⟨h, hread v h⟩, fun h => h.1⟩

theorem Visit.isRead_of_takes {id : UInt64} (v : Visit) (h : v.takes id = true) :
    v.isRead = true := by
  unfold Visit.takes at h
  simp only [Bool.and_eq_true, decide_eq_true_eq] at h
  rw [Visit.isRead, h.1]
  rfl

theorem Visit.isRead_of_issues {id : UInt64} (v : Visit) (h : v.issues id = true) :
    v.isRead = true := by
  unfold Visit.issues at h
  simp only [Bool.and_eq_true, decide_eq_true_eq] at h
  rw [Visit.isRead, h.1]
  rfl

namespace Pending

variable {vs vs' : List Visit}

/-- A visit gives an operation an error if it took a read of it that failed. -/
theorem findSome?_error_eq_none (p : Pending) (vs : List Visit) :
    (vs.findSome? (Visit.error? p.id)).getD 0 = 0
      ↔ vs.countP (fun v => v.takes p.id && v.ret ≠ .ok) = 0 := by
  rw [List.countP_eq_zero]
  have hone : ∀ v : Visit, v.error? p.id = none ↔ ¬ (v.takes p.id && v.ret ≠ .ok) = true := by
    intro v
    unfold Visit.error?
    cases v.ret with
    | ok => simp
    | err e => simp
  constructor
  · intro h
    cases hfind : vs.findSome? (Visit.error? p.id) with
    | none => exact fun v hv => (hone v).mp (List.findSome?_eq_none_iff.mp hfind v hv)
    | some e =>
      obtain ⟨v, -, hv⟩ := List.exists_of_findSome?_eq_some hfind
      rw [hfind, Option.getD_some] at h
      exact absurd h (error?_ne_zero hv)
  · intro h
    rw [List.findSome?_eq_none_iff.mpr (fun v hv => (hone v).mpr (h v hv))]
    rfl

/-- **The answers to reads decide what becomes of an operation**, in any order. -/
theorem verdict_settle (hperm : (readAnswers vs').Perm (readAnswers vs)) (p : Pending) :
    (p.settle vs').verdict = (p.settle vs).verdict
      ∧ vs'.countP (Visit.takes p.id) = vs.countP (Visit.takes p.id) := by
  have hcount : ∀ f : Visit → Bool, (∀ v, f v = true → v.isRead = true) →
      (∀ v, f v = f ⟨v.op, v.ret, []⟩) → vs'.countP f = vs.countP f := by
    intro f hread hparked
    rw [countP_readAnswers hread hparked, countP_readAnswers hread hparked, hperm.countP_eq]
  have htakes := hcount (Visit.takes p.id) Visit.isRead_of_takes (fun _ => rfl)
  have hissues := hcount (Visit.issues p.id) Visit.isRead_of_issues (fun _ => rfl)
  have herror := hcount (fun v => v.takes p.id && v.ret ≠ .ok)
    (fun v h => v.isRead_of_takes (Bool.and_eq_true_iff.mp h).1) (fun _ => rfl)
  have hzero : (p.settle vs').error = 0 ↔ (p.settle vs).error = 0 := by
    unfold settle
    dsimp only
    by_cases hp : p.error = 0
    · rw [if_pos hp, if_pos hp, findSome?_error_eq_none, findSome?_error_eq_none, herror]
    · rw [if_neg hp, if_neg hp]
  refine ⟨?_, htakes⟩
  unfold verdict
  rw [if_congr hzero rfl rfl]
  unfold settle
  dsimp only
  rw [htakes, hissues]

theorem finished_iff (hperm : (readAnswers vs').Perm (readAnswers vs)) (p : Pending) :
    p.Finished vs' ↔ p.Finished vs := by
  obtain ⟨hverdict, htakes⟩ := verdict_settle hperm p
  have hremaining : (p.settle vs').segRemaining = (p.settle vs).segRemaining := by
    have h := congrArg Pending.segRemaining hverdict
    exact h
  have hdeferred : (p.settle vs').segDeferred = (p.settle vs).segDeferred := by
    have h := congrArg Pending.segDeferred hverdict
    exact h
  unfold Finished
  rw [htakes, hremaining, hdeferred]

theorem map_verdict_outcome (hperm : (readAnswers vs').Perm (readAnswers vs)) (p : Pending) :
    (p.outcome vs').map verdict = (p.outcome vs).map verdict := by
  unfold outcome
  by_cases hfin : p.Finished vs
  · rw [if_pos hfin, if_pos ((finished_iff hperm p).mpr hfin)]
  · rw [if_neg hfin, if_neg (mt (finished_iff hperm p).mp hfin), Option.map_some, Option.map_some,
      (verdict_settle hperm p).1]

theorem map_verdict_closed (hperm : (readAnswers vs').Perm (readAnswers vs)) (p : Pending) :
    (p.closed vs').map verdict = (p.closed vs).map verdict := by
  unfold closed
  by_cases hfin : p.Finished vs
  · rw [if_pos hfin, if_pos ((finished_iff hperm p).mpr hfin), Option.map_some, Option.map_some,
      (verdict_settle hperm p).1]
  · rw [if_neg hfin, if_neg (mt (finished_iff hperm p).mp hfin)]

end Pending

/-! ## A pass is its answers -/

/-- What the visits with these answers put in flight. -/
def readsSent (zs : List (Deferred × Ret)) : List RdmaOp :=
  zs.flatMap (fun z => Visit.sent ⟨z.1, z.2, []⟩)

/-- The parked `FIN`s that went out with these answers. -/
def finsResent (self : SockAddr) (zs : List (Deferred × Ret)) : List Dgram :=
  zs.flatMap (fun z => Visit.fins self ⟨z.1, z.2, []⟩)

/-- The operations these answers leave parked. -/
def refused (zs : List (Deferred × Ret)) : List Deferred :=
  (zs.filter (fun z => z.2 = .err fiEagain)).map Prod.fst

/-- **What a pass does, by its answers** `zs`, by the receives `fs` it finalizes and,
for the operations that stay pending, by its visits `vs`. -/
structure Ep.PassOf (ep : Ep) (zs : List (Deferred × Ret)) (fs : List (Pending × FinFate))
    (vs : List Visit) (r : Ep) : Prop where
  reads : readAnswers vs = zs.filter (fun z => z.1.readId?.isSome)
  inflight : r.inflight = ep.inflight ++ readsSent zs
  wire : r.wire.Perm (ep.wire ++ (finsResent ep.cfg.self zs ++ finsSent ep.cfg fs))
  deferred : r.deferred = refused zs ++ finsParked fs
  pending : r.pending = ep.pending.filterMap (Pending.outcome vs)
  finalized : (fs.map Prod.fst).Perm (ep.pending.filterMap (Pending.closed vs))
  rxCq : r.rxCq = ep.rxCq ++ reportsOf ep.cfg fs
  closings : r.closings = ep.closings ++ closingsOf ep.cfg fs

/-- A visit that is refused puts nothing in flight. -/
theorem Visit.sent_of_refused (v : Visit) (h : v.ret = .err fiEagain) : v.sent = [] := by
  obtain ⟨d, ret, parked⟩ := v
  cases h
  cases d with
  | fin peer id => rfl
  | read peer cookie remoteOff liov id rts => rfl

/-- Nor anything on the wire. -/
theorem Visit.fins_of_refused (self : SockAddr) (v : Visit) (h : v.ret = .err fiEagain) :
    v.fins self = [] := by
  obtain ⟨d, ret, parked⟩ := v
  cases h
  cases d with
  | fin peer id => rfl
  | read peer cookie remoteOff liov id rts => rfl

/-- A pass with these answers does so. -/
theorem Ep.AnsweredBy.passOf {env : Env} {ep : Ep} {zs : List (Deferred × Ret)}
    {fate : UInt64 → FinFate} (hz : ep.AnsweredBy env zs fate) (h : ep.Covered) :
    ep.PassOf zs (ep.finalized env (2 * ep.deferred.length))
      (ep.visits env (2 * ep.deferred.length)) (rdsProgressDeferred env ep).1 := by
  have hfuel := visitsOf_le ep.deferred
  obtain ⟨hwalk, hkept⟩ := Ep.Covered.loop_walk env h hfuel []
  have hcloses := Ep.ClosesAll.loop env (2 * ep.deferred.length) [] ep
  have hfinalized : ((ep.finalized env (2 * ep.deferred.length)).map Prod.fst).Perm _ :=
    h.finalized_perm hfuel
  obtain ⟨hown, hagain, -⟩ := hz
  obtain ⟨hpending, hinflight⟩ := hwalk.pending h
  have hfin := fun {f : Deferred} => hwalk.parked_readId? (f := f)
  obtain ⟨own, again, hvs, hops, hparked⟩ := hwalk.order
  rw [rdsProgressDeferred]
  dsimp only
  generalize ep.finalized env (2 * ep.deferred.length) = fs at *
  generalize ep.visits env (2 * ep.deferred.length) = vs at *
  generalize rdsProgressDeferredLoop env (2 * ep.deferred.length) [] ep = r at *
  have hlength : own.length = ep.deferred.length := by
    rw [← hops, List.length_map]
  rw [hvs, ← hlength, List.take_left] at hown
  rw [hvs, ← hlength, List.drop_left] at hagain
  -- what was appended in the pass and visited again is a `FIN`, and was refused
  have hagainFin : ∀ v ∈ again, v.op.readId? = none := by
    intro v hv
    refine hfin ?_
    rw [hparked]
    exact List.mem_append_left _ (List.mem_map_of_mem hv)
  have hagainRead : ∀ v ∈ again, ¬ v.isRead = true := by
    intro v hv
    rw [Visit.isRead, hagainFin v hv]
    decide
  have hflat : ∀ {β : Type} (f : Visit → List β), (∀ v, f v = f ⟨v.op, v.ret, []⟩) →
      (∀ v ∈ again, f v = []) → vs.flatMap f = zs.flatMap (fun z => f ⟨z.1, z.2, []⟩) := by
    intro β f hf hnil
    rw [hvs, List.flatMap_append, List.flatMap_eq_nil_iff.mpr hnil, List.append_nil, ← hown,
      List.flatMap_map]
    exact List.flatMap_congr (fun v _ => hf v)
  refine ⟨?_, ?_, ?_, ?_, hpending, hfinalized, hcloses.rxCq, hcloses.closings⟩
  · rw [hvs, readAnswers, List.filter_append, List.filter_eq_nil_iff.mpr hagainRead,
      List.append_nil, ← hown, List.filter_map]
    rfl
  · rw [hinflight, readsSent]
    refine congrArg (ep.inflight ++ ·) (hflat Visit.sent (fun _ => rfl) (fun v hv => ?_))
    exact v.sent_of_refused (hagain v hv)
  · rw [finsResent, ← hflat (Visit.fins ep.cfg.self) (fun _ => rfl) (fun v hv => ?_)]
    · exact hcloses.wire
    · exact v.fins_of_refused ep.cfg.self (hagain v hv)
  · have hblocked : again.filter Visit.blocked = again :=
      List.filter_eq_self.mpr (fun v hv => by simp [Visit.blocked, hagain v hv])
    rw [hkept, List.nil_append, hvs, List.filter_append, hblocked, List.map_append,
      List.append_assoc, ← hparked, hcloses.parked, refused, ← hown, List.filter_map, List.map_map]
    rfl

/-! ## Two orders -/

/-- A permuted queue is as well covered. -/
theorem Ep.Covered.perm {ep : Ep} (h : ep.Covered) {queue : List Deferred}
    (hperm : queue.Perm ep.deferred) : ({ ep with deferred := queue } : Ep).Covered where
  distinct := h.distinct
  counted d hd id hid := by
    obtain ⟨p, hp, hpid, hle⟩ := h.counted d (hperm.mem_iff.mp hd) id hid
    refine ⟨p, hp, hpid, ?_⟩
    rw [Ep.parkedReads, hperm.countP_eq]
    exact hle

section

variable {env env' : Env} {ep : Ep} {fs fs' : List (Pending × FinFate)} {fate : UInt64 → FinFate}

/-- What receives do by their fate and their verdict. -/
theorem flatMap_fate {β : Type} (g : FinFate → SockAddr → UInt64 → List β)
    (hfate : ∀ x ∈ fs, x.2 = fate x.1.id) :
    fs.flatMap (fun x => g x.2 x.1.peer x.1.peerId)
      = ((fs.map Prod.fst).map Pending.verdict).flatMap
          (fun q => g (fate q.id) q.peer q.peerId) := by
  rw [List.map_map, List.flatMap_map]
  exact List.flatMap_congr (fun x hx => by rw [hfate x hx]; rfl)

/-- **Receives finalized with the same verdicts and fates send and park the same
`FIN`s.** -/
theorem fins_perm (hfate : ∀ x ∈ fs, x.2 = fate x.1.id) (hfate' : ∀ x ∈ fs', x.2 = fate x.1.id)
    (hperm : ((fs'.map Prod.fst).map Pending.verdict).Perm ((fs.map Prod.fst).map Pending.verdict))
    (cfg : EpCfg) :
    (finsSent cfg fs').Perm (finsSent cfg fs) ∧ (finsParked fs').Perm (finsParked fs) := by
  unfold finsSent finsParked
  rw [flatMap_fate (fun f peer id => f.wire cfg.self peer id) hfate,
    flatMap_fate (fun f peer id => f.wire cfg.self peer id) hfate',
    flatMap_fate (fun f peer id => f.queue peer id) hfate,
    flatMap_fate (fun f peer id => f.queue peer id) hfate']
  exact ⟨hperm.flatMap_right _, hperm.flatMap_right _⟩

end

/-- **The parked operations may be reordered.** Let the queue of an endpoint in good
account be permuted, and let each parked operation get the answer it had and the `FIN`
of each receive the fate it had. Then a pass puts the same reads in flight and the same
`FIN`s on the wire, leaves the same operations parked and every pending operation the
same but for the value of an error, and finalizes the same receives with the same
verdict. -/
theorem rdsProgressDeferred_reorder {env env' : Env} {ep ep' : Ep} (h : ep.Accounted)
    {zs zs' : List (Deferred × Ret)} {fate : UInt64 → FinFate} (hz : ep.AnsweredBy env zs fate)
    (hperm : zs'.Perm zs) (hep' : ep' = { ep with deferred := zs'.map Prod.fst })
    (hz' : ep'.AnsweredBy env' zs' fate) :
    ep'.deferred.Perm ep.deferred
      ∧ (rdsProgressDeferred env' ep').1.inflight.Perm (rdsProgressDeferred env ep).1.inflight
      ∧ (rdsProgressDeferred env' ep').1.wire.Perm (rdsProgressDeferred env ep).1.wire
      ∧ (rdsProgressDeferred env' ep').1.deferred.Perm (rdsProgressDeferred env ep).1.deferred
      ∧ (rdsProgressDeferred env' ep').1.pending.map Pending.verdict
        = (rdsProgressDeferred env ep).1.pending.map Pending.verdict
      ∧ ∃ fs fs', (rdsProgressDeferred env ep).1.closings = ep.closings ++ closingsOf ep.cfg fs
        ∧ (rdsProgressDeferred env' ep').1.closings = ep.closings ++ closingsOf ep.cfg fs'
        ∧ ((fs'.map Prod.fst).map Pending.verdict).Perm
            ((fs.map Prod.fst).map Pending.verdict) := by
  have hcovered := h.covered
  have hqueue : zs.map Prod.fst = ep.deferred := by
    obtain ⟨hwalk, -⟩ := Ep.Covered.loop_walk env hcovered (visitsOf_le ep.deferred) []
    obtain ⟨own, again, hvs, hops, -⟩ := hwalk.order
    have hlength : own.length = ep.deferred.length := by
      rw [← hops, List.length_map]
    rw [← hz.own, hvs, ← hlength, List.take_left, List.map_map]
    exact hops
  have hdeferred : (zs'.map Prod.fst).Perm ep.deferred := by
    rw [← hqueue]
    exact hperm.map _
  have hpass := hz.passOf hcovered
  have hfate := hz.fins
  have hpass' := hz'.passOf (by rw [hep']; exact hcovered.perm hdeferred)
  have hfate' := hz'.fins
  generalize ep.finalized env (2 * ep.deferred.length) = fs at hpass hfate
  generalize ep.visits env (2 * ep.deferred.length) = vs at hpass
  generalize ep'.finalized env' (2 * ep'.deferred.length) = fs' at hpass' hfate'
  generalize ep'.visits env' (2 * ep'.deferred.length) = vs' at hpass'
  generalize (rdsProgressDeferred env ep).1 = r at hpass ⊢
  generalize (rdsProgressDeferred env' ep').1 = r' at hpass' ⊢
  subst hep'
  have hreads : (readAnswers vs').Perm (readAnswers vs) := by
    rw [hpass.reads, hpass'.reads]
    exact hperm.filter _
  have hmap : ∀ f g : Pending → Option Pending, (∀ p, (f p).map Pending.verdict
      = (g p).map Pending.verdict) → ∀ ps : List Pending,
      (ps.filterMap f).map Pending.verdict = (ps.filterMap g).map Pending.verdict := by
    intro f g hfg ps
    rw [List.map_filterMap, List.map_filterMap]
    exact List.filterMap_congr (fun p _ => hfg p)
  have hfinalized : ((fs'.map Prod.fst).map Pending.verdict).Perm
      ((fs.map Prod.fst).map Pending.verdict) := by
    refine (hpass'.finalized.map _).trans (.trans ?_ (hpass.finalized.map _).symm)
    rw [hmap _ _ (Pending.map_verdict_closed hreads)]
  obtain ⟨hsent, hparked⟩ := fins_perm hfate hfate' hfinalized ep.cfg
  refine ⟨hdeferred, ?_, ?_, ?_, ?_, fs, fs', hpass.closings, hpass'.closings, hfinalized⟩
  · rw [hpass.inflight, hpass'.inflight]
    exact (hperm.flatMap_right _).append_left _
  · refine hpass'.wire.trans (.trans ?_ hpass.wire.symm)
    exact ((hperm.flatMap_right _).append hsent).append_left _
  · rw [hpass.deferred, hpass'.deferred]
    exact ((hperm.filter _).map _).append hparked
  · rw [hpass.pending, hpass'.pending]
    exact hmap _ _ (Pending.map_verdict_outcome hreads) _

/-- A socket that fails the first of two parked reads for good and has no room for
anything else. -/
def halfBroken : Env :=
  { Env.calm (fun _ _ => .error fiEnomem) with
    sendmsg := fun _ op =>
      if op.rdma?.map RdmaOp.cookie = some 11 then some fiEio else some fiEagain }

/-- The answers to the two reads. -/
def halfBrokenAnswers : List (Deferred × Ret) :=
  ((withTwoParkedReads.visits halfBroken 4).take 2).map Visit.answer

/-- In either order one of the reads stays parked, and so does the `FIN` of the receive
of the other. -/
theorem halfBroken_reorder :
    withTwoParkedReads.Accounted
      ∧ withTwoParkedReads.AnsweredBy halfBroken halfBrokenAnswers (fun _ => .parked)
      ∧ ({ withTwoParkedReads with
          deferred := halfBrokenAnswers.reverse.map Prod.fst } : Ep).AnsweredBy
        halfBroken halfBrokenAnswers.reverse (fun _ => .parked)
      ∧ (rdsProgressDeferred halfBroken withTwoParkedReads).1.deferred.length = 2
      ∧ (rdsProgressDeferred halfBroken { withTwoParkedReads with
            deferred := halfBrokenAnswers.reverse.map Prod.fst }).1.deferred.Perm
          (rdsProgressDeferred halfBroken withTwoParkedReads).1.deferred := by
  have hz : withTwoParkedReads.AnsweredBy halfBroken halfBrokenAnswers (fun _ => .parked) := by
    decide +kernel
  have hz' : ({ withTwoParkedReads with
      deferred := halfBrokenAnswers.reverse.map Prod.fst } : Ep).AnsweredBy
        halfBroken halfBrokenAnswers.reverse (fun _ => .parked) := by
    decide +kernel
  exact ⟨withTwoParkedReads_accounted, hz, hz', by decide +kernel,
    (rdsProgressDeferred_reorder withTwoParkedReads_accounted hz (List.reverse_perm _) rfl
      hz').2.2.2.1⟩
