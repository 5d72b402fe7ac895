import RdsProv.DeferredPass
import RdsProv.Ledger

/-!
# The receives a pass finalizes

`DeferredPass` says what a walk of the deferred queue makes of the queue, of the
pending operations and of the reads in flight. This module adds what it lets out:
the `FIN`s it sends and the completions it writes.

Both come with the receives it finalizes. A visit finalizes one receive or none
(`Ep.finalizes`), and says what becomes of its `FIN`: sent, parked, or lost
(`FinFate`). The `FIN`s on the wire, the `FIN`s appended to the queue and the
entries of the completion queue are then read off the receives finalized, one after
the other (`Ep.Closes`), and those are the pending operations that the visits leave
nothing to wait for (`Ep.Covered.finalized_perm`).
-/

/-! ## The `FIN` of a receive -/

/-- What becomes of a `FIN`. -/
inductive FinFate where
  | sent
  | parked
  | lost
  deriving DecidableEq, Repr

/-- What becomes of the `FIN` an endpoint sends: refused, it is parked if there is
memory for it. -/
def finFate (env : Env) (ep : Ep) (peer : SockAddr) (id : UInt64) : FinFate :=
  match (rdsSendFinRaw env ep peer id).2 with
  | .ok => .sent
  | .err e => if e = fiEagain ∧ env.alloc (ep.tick + 1) = true then .parked else .lost

namespace FinFate

/-- What it puts on the wire. -/
def wire (self peer : SockAddr) (id : UInt64) (f : FinFate) : List Dgram :=
  if f = .sent then [finDgram self peer id] else []

/-- What it appends to the deferred queue. -/
def queue (peer : SockAddr) (id : UInt64) (f : FinFate) : List Deferred :=
  if f = .parked then [.fin peer id] else []

end FinFate

/-- **A `FIN` has its fate**, and nothing else of the endpoint changes. -/
theorem rdsSendFin_fate (env : Env) (ep : Ep) (peer : SockAddr) (id : UInt64) :
    ∃ t l, rdsSendFin env ep peer id = { ep with
        tick := t
        wire := ep.wire ++ (finFate env ep peer id).wire ep.cfg.self peer id
        deferred := ep.deferred ++ (finFate env ep peer id).queue peer id
        trace := ep.trace ++ l }
      ∧ ∀ ev ∈ l, ev = .finLost peer id := by
  unfold rdsSendFin finFate rdsSendFinRaw
  obtain ⟨-, h⟩ | ⟨_, e, -, -, h⟩ := ep.sendDgram_cases env peer (finHdr id).encode
  · rw [h]
    exact ⟨ep.tick + 1, [], by simp [FinFate.wire, FinFate.queue, finDgram], by simp⟩
  rw [h]
  dsimp only
  by_cases he : e = fiEagain
  · rw [if_pos he]
    unfold rdsDeferFin Ep.malloc
    dsimp only
    cases halloc : env.alloc (ep.tick + 1) with
    | true => exact ⟨ep.tick + 2, [], by simp [FinFate.wire, FinFate.queue, he], by simp⟩
    | false =>
      exact ⟨ep.tick + 2, [.finLost peer id],
        by simp [FinFate.wire, FinFate.queue, Ep.log], by simp⟩
  · rw [if_neg he]
    exact ⟨ep.tick + 1, [.finLost peer id],
      by simp [FinFate.wire, FinFate.queue, Ep.log, he], by simp⟩

/-- **What finalizing a receive lets out**: its `FIN` and its completion. -/
theorem rdsRndzvRxFinalize_fate (env : Env) (ep : Ep) (p : Pending) :
    ∃ t l, rdsRndzvRxFinalize env ep p = { ep with
        tick := t
        wire := ep.wire ++ (finFate env ep p.peer p.peerId).wire ep.cfg.self p.peer p.peerId
        deferred := ep.deferred ++ (finFate env ep p.peer p.peerId).queue p.peer p.peerId
        rxCq := ep.rxCq ++ p.entries ep.cfg
        trace := ep.trace ++ l ++ [.rxDone p.id (p.entries ep.cfg)] }
      ∧ ∀ ev ∈ l, ev = .finLost p.peer p.peerId := by
  obtain ⟨t, l, hfin, hl⟩ := rdsSendFin_fate env ep p.peer p.peerId
  exact ⟨t, l, rdsRndzvRxFinalize_eq env ep p hfin, hl⟩

/-! ## What a visit lets out -/

/-- The end of a receive: which one, and what it reported. -/
def Event.closing? : Event → Option (UInt64 × List CqEntry)
  | .rxDone id cqes => some (id, cqes)
  | _ => none

/-- The receives finalized so far, in order. -/
def Ep.closings (ep : Ep) : List (UInt64 × List CqEntry) := ep.trace.filterMap Event.closing?

/-- The `FIN` that a visit of a parked one sent. -/
def Visit.fins (self : SockAddr) (v : Visit) : List Dgram :=
  match v.op, v.ret with
  | .fin peer id, .ok => [finDgram self peer id]
  | _, _ => []

/-- The endpoint after the attempt a visit makes. -/
def Deferred.tried (env : Env) (ep : Ep) : Deferred → Ep
  | .fin peer id => (rdsSendFinRaw env ep peer id).1
  | .read peer cookie remoteOff liov id rts =>
    (rdsPostRdma env ep (ReadReq.op ⟨cookie, remoteOff, liov⟩ peer id rts)).1

/-- **The receive a visit finalizes**, if any, as it is then, with what becomes of
its `FIN`: that of a read whose answer leaves its receive nothing to wait for. -/
def Ep.finalizes (env : Env) (ep : Ep) (d : Deferred) : Option (Pending × FinFate) :=
  match d.readId?.bind (rdsPendingFind ep) with
  | none => none
  | some p =>
    let v : Visit := ⟨d, d.attempt env ep, []⟩
    if p.Finished [v] then
      some (p.settle [v], finFate env (d.tried env ep) p.peer p.peerId)
    else none

section

variable (cfg : EpCfg) (fs : List (Pending × FinFate))

/-- The `FIN`s of finalized receives that were sent. -/
def finsSent : List Dgram := fs.flatMap (fun x => x.2.wire cfg.self x.1.peer x.1.peerId)

/-- The `FIN`s of finalized receives that were parked. -/
def finsParked : List Deferred := fs.flatMap (fun x => x.2.queue x.1.peer x.1.peerId)

/-- What finalized receives report. -/
def reportsOf : List CqEntry := fs.flatMap (fun x => x.1.entries cfg)

/-- What is recorded of finalized receives. -/
def closingsOf : List (UInt64 × List CqEntry) := fs.map (fun x => (x.1.id, x.1.entries cfg))

end

/-- **What a visit lets out** is what the receives it finalizes do, and the `FIN` it
was a visit of. -/
structure Ep.Closes (ep : Ep) (v : Visit) (fs : List (Pending × FinFate)) (r : Ep) : Prop where
  cfg : r.cfg = ep.cfg
  wire : r.wire = ep.wire ++ (v.fins ep.cfg.self ++ finsSent ep.cfg fs)
  deferred : r.deferred = ep.deferred ++ finsParked fs
  rxCq : r.rxCq = ep.rxCq ++ reportsOf ep.cfg fs
  closings : r.closings = ep.closings ++ closingsOf ep.cfg fs

namespace Ep.Closes

variable {env : Env} {ep : Ep}

/-- Nothing is let out, and nothing recorded that is the end of a receive. -/
theorem quiet {v : Visit} (hv : v.fins ep.cfg.self = []) {r : Ep} (hcfg : r.cfg = ep.cfg)
    (hwire : r.wire = ep.wire) (hdeferred : r.deferred = ep.deferred) (hrxCq : r.rxCq = ep.rxCq)
    {l : List Event} (htrace : r.trace = ep.trace ++ l) (hl : ∀ ev ∈ l, ev.closing? = none) :
    ep.Closes v [] r where
  cfg := hcfg
  wire := by simpa [hv, finsSent] using hwire
  deferred := by simpa [finsParked] using hdeferred
  rxCq := by simpa [reportsOf] using hrxCq
  closings := by
    unfold Ep.closings closingsOf
    rw [htrace, List.filterMap_append, List.filterMap_eq_nil_iff.mpr hl]
    rfl

theorem fin (env : Env) (ep : Ep) (peer : SockAddr) (id : UInt64) :
    ep.Closes (ep.visit env (.fin peer id)) [] (rdsRetryDeferred env ep (.fin peer id)).1 := by
  unfold Ep.visit Deferred.attempt rdsRetryDeferred rdsSendFinRaw
  obtain ⟨-, h⟩ | ⟨_, e, -, -, h⟩ := ep.sendDgram_cases env peer (finHdr id).encode
  · simp only [h]
    exact ⟨rfl, rfl, (List.append_nil _).symm, (List.append_nil _).symm, (List.append_nil _).symm⟩
  · simp only [h]
    by_cases he : e = fiEagain
    · rw [if_pos he]
      exact quiet rfl rfl rfl rfl rfl (List.append_nil _).symm (by simp)
    · rw [if_neg he]
      exact quiet rfl rfl rfl rfl rfl (l := [.finLost peer id]) rfl (by simp [Event.closing?])

/-- A read lets out what the receive it finalizes does. -/
theorem read (env : Env) (ep : Ep) {peer : SockAddr} {cookie remoteOff : UInt64}
    {liov : List Iovec} {id rts : UInt64} :
    ep.Closes (ep.visit env (.read peer cookie remoteOff liov id rts))
      (ep.finalizes env (.read peer cookie remoteOff liov id rts)).toList
      (rdsRetryDeferred env ep (.read peer cookie remoteOff liov id rts)).1 := by
  generalize hd : Deferred.read peer cookie remoteOff liov id rts = d
  have hid : d.readId? = some id := by
    rw [← hd]
    rfl
  have hnofin : (ep.visit env d).fins ep.cfg.self = [] := by
    rw [← hd]
    rfl
  have hretry : rdsRetryDeferred env ep d
      = rdsRetryRead env ep peer ⟨cookie, remoteOff, liov⟩ id rts := by
    rw [← hd]
    rfl
  have hattempt : (d.tried env ep, d.attempt env ep)
      = rdsPostRdma env ep (ReadReq.op ⟨cookie, remoteOff, liov⟩ peer id rts) := by
    rw [← hd]
    rfl
  rw [hretry, Ep.finalizes, hid, Option.bind_some]
  cases hfind : rdsPendingFind ep id with
  | none =>
    rw [rdsRetryRead, hfind]
    exact quiet hnofin rfl rfl rfl rfl (l := [.orphan id]) rfl (by simp [Event.closing?])
  | some p =>
    dsimp only
    have hown : d.readId? = some p.id := by
      have hpid : p.id = id := by simpa using List.find?_some hfind
      rw [hid, hpid]
    obtain ⟨ret, hret⟩ : ∃ ret, d.attempt env ep = ret := ⟨_, rfl⟩
    obtain ⟨e, he⟩ : ∃ e, d.tried env ep = e := ⟨_, rfl⟩
    rw [he, hret] at hattempt
    rw [he, hret]
    obtain ⟨t, ops, htried⟩ : ∃ t ops, e = { ep with tick := t, inflight := ops } := by
      obtain ⟨-, h⟩ | ⟨_, _, -, -, h⟩ | ⟨-, -, h⟩ | ⟨-, hn, -⟩ :=
        rdsPostRdma_cases env ep (ReadReq.op ⟨cookie, remoteOff, liov⟩ peer id rts)
      · cases hattempt.trans h
        exact ⟨_, _, rfl⟩
      · cases hattempt.trans h
        exact ⟨_, _, rfl⟩
      · cases hattempt.trans h
        exact ⟨_, _, rfl⟩
      · cases hn
    by_cases hagain : ret = .err fiEagain
    · have hlive : ¬ p.Finished [⟨d, ret, []⟩] := by
        intro hfin
        have hpos := hfin.1
        simp [Visit.takes, Visit.blocked, hagain] at hpos
      rw [rdsRetryRead, hfind, ← hattempt, if_neg hlive]
      dsimp only
      rw [if_pos hagain, htried]
      exact quiet hnofin rfl rfl rfl rfl (List.append_nil _).symm (by simp)
    obtain ⟨l, q, heq, hl, hq⟩ :=
      Visited.rdsRetryRead_counts hfind hattempt.symm hagain hown
    have hclosing : ∀ ev ∈ l, ev.closing? = none := by
      intro ev hev
      obtain rfl | rfl := hl ev hev
      · rfl
      · rfl
    have hfinished : p.Finished [⟨d, ret, []⟩] ↔ q.segRemaining = 0 ∧ q.segDeferred = 0 := by
      unfold Pending.Finished
      rw [← hq [], and_iff_right]
      simp [Visit.takes, Visit.blocked, hown, hagain]
    rw [heq, ← hq []]
    by_cases hzero : q.segRemaining = 0 ∧ q.segDeferred = 0
    · have hsame : q.peer = p.peer ∧ q.peerId = p.peerId := by
        rw [hq []]
        exact ⟨rfl, rfl⟩
      rw [if_pos hzero, if_pos (hfinished.mpr hzero), ← hsame.1, ← hsame.2]
      -- the `FIN` has the same fate whatever is recorded before
      have hfate : finFate env { e with trace := e.trace ++ l } q.peer q.peerId
          = finFate env e q.peer q.peerId := by
        unfold finFate rdsSendFinRaw Ep.sendDgram Ep.sendmsg
        cases env.sendmsg e.tick (.dgram q.peer (finHdr q.peerId).encode) with
        | none => rfl
        | some err =>
          dsimp only
          cases sockRet err with
          | ok => rfl
          | err _ => rfl
      obtain ⟨t', l', hfinal, hl'⟩ :=
        rdsRndzvRxFinalize_fate env { e with trace := e.trace ++ l } q
      rw [hfinal, hfate, htried]
      refine ⟨rfl, ?_, ?_, ?_, ?_⟩
      · rw [hnofin]
        simp [Ep.unlinkPending, finsSent]
      · simp [Ep.unlinkPending, finsParked]
      · simp [Ep.unlinkPending, reportsOf]
      · have hl'closing : ∀ ev ∈ l', ev.closing? = none := by
          intro ev hev
          rw [hl' ev hev]
          rfl
        simp only [Ep.unlinkPending, Ep.closings, closingsOf, List.filterMap_append]
        rw [List.filterMap_eq_nil_iff.mpr hclosing, List.filterMap_eq_nil_iff.mpr hl'closing]
        simp [Event.closing?]
    · rw [if_neg hzero, if_neg (mt hfinished.mp hzero), htried]
      exact quiet hnofin rfl rfl rfl rfl rfl hclosing

/-- **Every visit lets out what the receive it finalizes does.** -/
theorem retry (env : Env) (ep : Ep) (d : Deferred) :
    ep.Closes (ep.visit env d) (ep.finalizes env d).toList (rdsRetryDeferred env ep d).1 := by
  cases d with
  | fin peer id => exact fin env ep peer id
  | read peer cookie remoteOff liov id rts => exact read env ep

end Ep.Closes

/-! ## What a walk lets out -/

/-- The receives a walk finalizes, in order. -/
def Ep.finalized (env : Env) : ℕ → Ep → List (Pending × FinFate)
  | 0, _ => []
  | fuel + 1, ep =>
    match ep.deferred with
    | [] => []
    | d :: todo =>
      let ep := { ep with deferred := todo }
      (ep.finalizes env d).toList
        ++ if todo = [] then [] else finalized env fuel (rdsRetryDeferred env ep d).1

section

variable (cfg : EpCfg) (fs fs' : List (Pending × FinFate))

theorem finsSent_append : finsSent cfg (fs ++ fs') = finsSent cfg fs ++ finsSent cfg fs' :=
  List.flatMap_append

theorem finsParked_append : finsParked (fs ++ fs') = finsParked fs ++ finsParked fs' :=
  List.flatMap_append

theorem reportsOf_append : reportsOf cfg (fs ++ fs') = reportsOf cfg fs ++ reportsOf cfg fs' :=
  List.flatMap_append

theorem closingsOf_append : closingsOf cfg (fs ++ fs') = closingsOf cfg fs ++ closingsOf cfg fs' :=
  List.map_append

end

/-- **What a walk lets out** is what the receives it finalizes do, in their order, and
between them the `FIN`s it was a walk over. -/
structure Ep.ClosesAll (ep : Ep) (vs : List Visit) (fs : List (Pending × FinFate)) (r : Ep) :
    Prop where
  cfg : r.cfg = ep.cfg
  wire : r.wire.Perm (ep.wire ++ (vs.flatMap (Visit.fins ep.cfg.self) ++ finsSent ep.cfg fs))
  parked : vs.flatMap Visit.parked = finsParked fs
  rxCq : r.rxCq = ep.rxCq ++ reportsOf ep.cfg fs
  closings : r.closings = ep.closings ++ closingsOf ep.cfg fs

namespace Ep.ClosesAll

variable {env : Env} {ep : Ep}

theorem nil (ep : Ep) : ep.ClosesAll [] [] ep where
  cfg := rfl
  wire := by simp [finsSent]
  parked := rfl
  rxCq := by simp [reportsOf]
  closings := by simp [closingsOf]

/-- What a visit appends to the queue is the `FIN` of the receive it finalizes. -/
theorem visit_parked (env : Env) (ep : Ep) (d : Deferred) :
    (ep.visit env d).parked = finsParked (ep.finalizes env d).toList := by
  rw [Ep.visit, (Ep.Closes.retry env ep d).deferred, List.drop_left]

/-- A visit, and then a walk. -/
theorem cons {v : Visit} {vs : List Visit} {fs fs' : List (Pending × FinFate)} {r r' : Ep}
    {todo : List Deferred} (hv : ({ ep with deferred := todo } : Ep).Closes v fs r)
    (hparked : v.parked = finsParked fs) (h : r.ClosesAll vs fs' r') :
    ep.ClosesAll (v :: vs) (fs ++ fs') r' := by
  have hcfg : r.cfg = ep.cfg := hv.cfg
  have hwire : r.wire = ep.wire ++ (v.fins ep.cfg.self ++ finsSent ep.cfg fs) := hv.wire
  have hrxCq : r.rxCq = ep.rxCq ++ reportsOf ep.cfg fs := hv.rxCq
  have hclosings : r.closings = ep.closings ++ closingsOf ep.cfg fs := hv.closings
  refine ⟨h.cfg.trans hcfg, h.wire.trans ?_, ?_, ?_, ?_⟩
  · rw [hcfg, hwire, finsSent_append, List.flatMap_cons]
    simp only [List.append_assoc]
    refine List.Perm.append_left _ (List.Perm.append_left _ ?_)
    rw [← List.append_assoc, ← List.append_assoc]
    exact List.perm_append_comm.append_right _
  · rw [List.flatMap_cons, hparked, h.parked, finsParked_append]
  · rw [h.rxCq, hrxCq, hcfg, reportsOf_append, List.append_assoc]
  · rw [h.closings, hclosings, hcfg, closingsOf_append, List.append_assoc]

/-- **What the loop lets out.** -/
theorem loop (env : Env) (fuel : ℕ) (kept : List Deferred) (ep : Ep) :
    ep.ClosesAll (ep.visits env fuel) (ep.finalized env fuel)
      (rdsProgressDeferredLoop env fuel kept ep).1 := by
  induction fuel generalizing ep kept with
  | zero => exact nil ep
  | succ fuel ih =>
    rw [rdsProgressDeferredLoop, Ep.visits, Ep.finalized]
    cases htodo : ep.deferred with
    | nil => exact nil ep
    | cons d todo =>
      dsimp only
      have hv := Ep.Closes.retry env { ep with deferred := todo } d
      have hparked := visit_parked env { ep with deferred := todo } d
      by_cases hlast : todo = []
      · rw [if_pos hlast, if_pos hlast, if_pos hlast]
        exact cons hv hparked (nil _)
      · rw [if_neg hlast, if_neg hlast, if_neg hlast]
        exact cons hv hparked (ih _ _)

end Ep.ClosesAll

/-! ## Which receives a walk finalizes -/

namespace Pending

variable {v : Visit} {vs : List Visit} {p : Pending}

/-- An operation that some visits finalized, as it was then. -/
def closed (vs : List Visit) (p : Pending) : Option Pending :=
  if p.Finished vs then some (p.settle vs) else none

/-- It was finalized by the first visit or by those after it. -/
theorem closed_cons
    (hcount : (v :: vs).countP (fun v => v.op.readId? = some p.id) ≤ p.segDeferred.toNat) :
    (p.closed (v :: vs) = p.closed [v] ∧ (p.outcome [v]).bind (closed vs) = none)
      ∨ (p.closed [v] = none ∧ p.closed (v :: vs) = (p.outcome [v]).bind (closed vs)) := by
  have houtcome := outcome_cons hcount
  by_cases hfin : p.Finished [v]
  · have hnone : p.outcome [v] = none := outcome_eq_none_iff.mpr hfin
    rw [hnone, Option.bind_none] at houtcome ⊢
    refine .inl ⟨?_, rfl⟩
    have hrest : ∀ w ∈ vs, w.takes p.id = false := untaken_of_finished hcount hfin
    have hsame : p.settle (v :: vs) = p.settle [v] := by
      rw [settle_cons]
      exact settle_of_untaken hrest
    unfold closed
    rw [if_pos hfin, if_pos (outcome_eq_none_iff.mp houtcome), hsame]
  · have hsome : p.outcome [v] = some (p.settle [v]) := if_neg hfin
    rw [hsome, Option.bind_some] at houtcome ⊢
    refine .inr ⟨if_neg hfin, ?_⟩
    unfold closed
    rw [settle_cons]
    refine if_congr ?_ rfl rfl
    rw [← outcome_eq_none_iff, ← outcome_eq_none_iff, houtcome]

/-- What a visit appends to the queue does not matter. -/
theorem closed_parked (d : Deferred) (ret : Ret) (parked : List Deferred) (p : Pending) :
    p.closed [⟨d, ret, parked⟩] = p.closed [⟨d, ret, []⟩] := rfl

end Pending

/-- The receive a visit finalizes is the pending operation it leaves nothing to wait
for. -/
theorem Ep.Covered.finalizes_eq {env : Env} {ep : Ep} (h : ep.Covered) {d : Deferred}
    {todo : List Deferred} (htodo : ep.deferred = d :: todo) :
    (({ ep with deferred := todo } : Ep).finalizes env d).toList.map Prod.fst
      = ep.pending.filterMap
        (Pending.closed [({ ep with deferred := todo } : Ep).visit env d]) := by
  generalize hep : ({ ep with deferred := todo } : Ep) = e
  have hpending : e.pending = ep.pending := by rw [← hep]
  rw [Ep.visit, ← hpending, List.filterMap_congr (fun p _ => Pending.closed_parked _ _ _ p),
    Ep.finalizes]
  have hother : ∀ x : Pending, d.readId? ≠ some x.id →
      x.closed [⟨d, d.attempt env e, []⟩] = none := by
    intro x hx
    refine if_neg (fun hfin => ?_)
    have hpos := hfin.1
    simp [Visit.takes, hx] at hpos
  cases hid : d.readId? with
  | none =>
    rw [List.filterMap_eq_nil_iff.mpr (fun x _ => hother x (by simp [hid]))]
    rfl
  | some id =>
    obtain ⟨p, hp, rfl, -⟩ := h.counted d (htodo ▸ List.mem_cons_self) id hid
    have hfind : rdsPendingFind e p.id = some p := by
      rw [rdsPendingFind, hpending]
      exact h.find hp
    have hdistinct : (e.pending.map Pending.id).Nodup := by
      rw [hpending]
      exact h.distinct
    rw [List.filterMap_key_toList hdistinct hfind
      (fun x hx => hother x (by rw [hid]; exact fun heq => hx (Option.some.inj heq).symm))]
    rw [Option.bind_some, hfind]
    dsimp only
    unfold Pending.closed
    split
    · rfl
    · rfl

/-- **The receives a walk finalizes** are the pending operations its visits leave
nothing to wait for. -/
theorem Ep.Covered.finalized_perm {env : Env} {ep : Ep} (h : ep.Covered) {fuel : ℕ}
    (hfuel : visitsOf ep.deferred ≤ fuel) :
    ((ep.finalized env fuel).map Prod.fst).Perm
      (ep.pending.filterMap (Pending.closed (ep.visits env fuel))) := by
  have hnone : ∀ ps : List Pending, ps.filterMap (Pending.closed []) = [] :=
    fun ps => List.filterMap_eq_nil_iff.mpr
      (fun p _ => if_neg (fun hfin => absurd hfin.1 (by simp)))
  induction fuel generalizing ep with
  | zero =>
    rw [Ep.visits, hnone]
    exact .nil
  | succ fuel ih =>
    have hwalk := (loop_walk env h hfuel []).1
    rw [Ep.finalized]
    rw [Ep.visits] at hwalk ⊢
    cases htodo : ep.deferred with
    | nil =>
      rw [hnone]
      exact .nil
    | cons d todo =>
      rw [htodo] at hwalk
      dsimp only at hwalk ⊢
      have hv := visited env h htodo
      rw [List.map_append, h.finalizes_eq htodo]
      by_cases hlast : todo = []
      · rw [if_pos hlast, if_pos hlast, List.map_nil, List.append_nil]
      · rw [if_neg hlast, if_neg hlast]
        rw [if_neg hlast] at hwalk
        have hfuel : visitsOf (rdsRetryDeferred env { ep with deferred := todo } d).1.deferred
            ≤ fuel := by
          have hvisits := visitsOf_next hv
          rw [htodo] at hfuel
          exact Nat.le_of_lt_succ (hvisits.trans hfuel)
        refine (List.Perm.append_left _ (ih (h.next htodo hv) hfuel)).trans ?_
        rw [hv.pending, List.filterMap_filterMap]
        refine (List.filterMap_perm_append (fun p hp => Pending.closed_cons ?_)).symm
        rw [hwalk.countP_reads p.id]
        exact h.parkedReads_le hp
