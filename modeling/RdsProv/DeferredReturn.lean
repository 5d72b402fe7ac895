import RdsProv.Finalized

/-!
# What a pass returns

`rds_progress_deferred` returns 0 if the queue fully drained, says its comment, and
`-FI_EAGAIN` if anything is still parked. It does not look at the queue to know: it
returns whether some visited operation was refused. An operation that is parked and
was not refused is a `FIN` that a finalized receive appended and the walk did not
come to, and the walk comes to all of them but one appended by its last visit.

So the answer is false for one sort of pass, in which everything goes out but the
`FIN` that the last visit appends (`Ep.Strands`).
-/

/-- **A retry is refused**: the socket has no room for it. A read whose receive is gone
is not tried. -/
def Deferred.Refused (env : Env) (ep : Ep) (d : Deferred) : Prop :=
  d.attempt env ep = .err fiEagain ∧ ∀ id, d.readId? = some id → rdsPendingFind ep id ≠ none

/-- **A retry leaves a `FIN` behind**: it was the last read its receive waited for and
failed for good, so that the receive is finalized, and the socket has no room for its
`FIN`. -/
def Deferred.LeavesFin (env : Env) (ep : Ep) (d : Deferred) : Prop :=
  ∃ q, ep.finalizes env d = some (q, .parked)

/-- **The last retry of a walk leaves a `FIN` behind**, and no retry before it was
refused or did. -/
inductive Ep.Strands (env : Env) : Ep → Prop
  | last {ep : Ep} {d : Deferred} (htodo : ep.deferred = [d])
      (hfin : d.LeavesFin env { ep with deferred := [] }) : Strands env ep
  | next {ep : Ep} {d : Deferred} {todo : List Deferred} (htodo : ep.deferred = d :: todo)
      (hmore : todo ≠ []) (hgone : ¬ d.Refused env { ep with deferred := todo })
      (hquiet : ¬ d.LeavesFin env { ep with deferred := todo })
      (hrest : Strands env (rdsRetryDeferred env { ep with deferred := todo } d).1) :
      Strands env ep

variable {env : Env} {ep : Ep} {d : Deferred}

/-- What is refused stays parked, and nothing else does. -/
theorem rdsRetryDeferred_stays (env : Env) (ep : Ep) (d : Deferred) :
    (rdsRetryDeferred env ep d).2 = true ↔ d.Refused env ep := by
  unfold Deferred.Refused
  cases d with
  | fin peer id =>
    rw [and_iff_left (fun _ h => by cases h), (Ep.Visited.fin env ep peer id).stays]
    exact decide_eq_true_iff
  | read peer cookie remoteOff liov id rts =>
    have howner : (∀ i, (Deferred.read peer cookie remoteOff liov id rts).readId? = some i →
        rdsPendingFind ep i ≠ none) ↔ rdsPendingFind ep id ≠ none := by
      simp [Deferred.readId?]
    rw [howner, rdsRetryDeferred, rdsRetryRead]
    cases hfind : rdsPendingFind ep id with
    | none => simp
    | some p =>
      rw [and_iff_left (Option.some_ne_none p), Deferred.attempt]
      dsimp only
      generalize rdsPostRdma env ep _ = post
      by_cases hagain : post.2 = .err fiEagain
      · rw [if_pos hagain]
        exact iff_of_true rfl hagain
      · rw [if_neg hagain, apply_ite Prod.snd, ite_self]
        exact iff_of_false Bool.false_ne_true hagain

namespace Deferred

/-- A refused read finalizes nothing. -/
theorem LeavesFin.not_refused (h : d.LeavesFin env ep) : ¬ d.Refused env ep := by
  rintro ⟨hagain, -⟩
  obtain ⟨q, hq⟩ := h
  unfold Ep.finalizes at hq
  rw [hagain] at hq
  split at hq
  · cases hq
  · rename_i p _
    have hlive : ¬ p.Finished [⟨d, .err fiEagain, []⟩] := by
      intro hfin
      have hpos := hfin.1
      simp [Visit.takes, Visit.blocked] at hpos
    dsimp only at hq
    rw [if_neg hlive] at hq
    cases hq

/-- Only a read leaves a `FIN` behind. -/
theorem LeavesFin.readId?_ne_none (h : d.LeavesFin env ep) : d.readId? ≠ none := by
  obtain ⟨q, hq⟩ := h
  intro hnone
  rw [Ep.finalizes, hnone] at hq
  cases hq

/-- What a retry appends to the queue. -/
theorem deferred_retry (env : Env) (ep : Ep) (d : Deferred) :
    (d.LeavesFin env ep ∧ ∃ peer id,
        (rdsRetryDeferred env ep d).1.deferred = ep.deferred ++ [.fin peer id])
      ∨ (¬ d.LeavesFin env ep ∧ (rdsRetryDeferred env ep d).1.deferred = ep.deferred) := by
  rw [(Ep.Closes.retry env ep d).deferred, LeavesFin]
  cases ep.finalizes env d with
  | none => exact .inr ⟨by simp, by simp [finsParked]⟩
  | some x =>
    obtain ⟨q, fate⟩ := x
    cases fate with
    | parked => exact .inl ⟨⟨q, rfl⟩, q.peer, q.peerId, by simp [finsParked, FinFate.queue]⟩
    | sent => exact .inr ⟨by simp, by simp [finsParked, FinFate.queue]⟩
    | lost => exact .inr ⟨by simp, by simp [finsParked, FinFate.queue]⟩

/-- A retry leaves fewer visits to make. -/
theorem visitsOf_retry (env : Env) (ep : Ep) (d : Deferred) :
    visitsOf (rdsRetryDeferred env ep d).1.deferred + 1 ≤ visitsOf (d :: ep.deferred) := by
  have hcons : visitsOf (d :: ep.deferred) = visitsOf [d] + visitsOf ep.deferred :=
    visitsOf_append [d] ep.deferred
  rw [hcons]
  obtain ⟨hfin, peer, id, h⟩ | ⟨-, h⟩ := deferred_retry env ep d
  · have htwo : visitsOf [d] = 2 := by
      rw [visitsOf, List.countP_singleton, if_pos (by simpa using hfin.readId?_ne_none)]
      rfl
    have hone : visitsOf [.fin peer id] = 1 := rfl
    rw [h, visitsOf_append, hone, htwo]
    omega
  · have hpos : 1 ≤ visitsOf [d] := Nat.le_add_right 1 _
    rw [h]
    omega

end Deferred

/-- What was kept before a walk stands before what it keeps, and changes nothing else. -/
theorem rdsProgressDeferredLoop_kept (env : Env) (fuel : ℕ) (kept : List Deferred) (ep : Ep) :
    rdsProgressDeferredLoop env fuel kept ep
      = ((rdsProgressDeferredLoop env fuel [] ep).1,
          kept ++ (rdsProgressDeferredLoop env fuel [] ep).2) := by
  induction fuel generalizing kept ep with
  | zero => simp [rdsProgressDeferredLoop]
  | succ fuel ih =>
    rw [rdsProgressDeferredLoop, rdsProgressDeferredLoop]
    cases ep.deferred with
    | nil => simp
    | cons d todo =>
      dsimp only
      generalize rdsRetryDeferred env { ep with deferred := todo } d = r
      have hkept : (if r.2 = true then kept ++ [d] else kept)
          = kept ++ if r.2 = true then [] ++ [d] else [] := by
        split
        · rfl
        · exact (List.append_nil kept).symm
      by_cases hlast : todo = []
      · rw [if_pos hlast, if_pos hlast, hkept]
      · rw [if_neg hlast, if_neg hlast, hkept, ih, ih (if r.2 = true then [] ++ [d] else []),
          List.append_assoc]

namespace Ep.Strands

/-- **A walk that ends with a `FIN` leaves none behind.** -/
theorem not_of_fin {l : List Deferred} {peer : SockAddr} {id : UInt64}
    (hep : ep.deferred = l ++ [.fin peer id]) : ¬ ep.Strands env := by
  intro h
  induction h generalizing l with
  | @last ep d htodo hfin =>
    -- the queue is that `FIN` alone, and no `FIN` leaves another
    have hd : d = .fin peer id := by
      have hlast := congrArg List.getLast? (htodo.symm.trans hep)
      simpa using hlast
    rw [hd] at hfin
    exact absurd rfl hfin.readId?_ne_none
  | @next ep d todo htodo hmore hgone hquiet hrest ih =>
    cases l with
    | nil =>
      rw [hep] at htodo
      cases htodo
      exact hmore rfl
    | cons d' l =>
      obtain ⟨-, htail⟩ := List.cons.inj (htodo.symm.trans hep)
      obtain ⟨hfin, -⟩ | ⟨-, hsame⟩ :=
        Deferred.deferred_retry env { ep with deferred := todo } d
      · exact hquiet hfin
      · exact ih (hsame.trans htail)

/-- One visit of a walk that goes on. -/
theorem next_iff {todo : List Deferred} (htodo : ep.deferred = d :: todo) (hmore : todo ≠ []) :
    ep.Strands env ↔ ¬ d.Refused env { ep with deferred := todo }
      ∧ (rdsRetryDeferred env { ep with deferred := todo } d).1.Strands env := by
  constructor
  · intro h
    cases h with
    | last h hfin =>
      rw [htodo] at h
      cases h
      exact absurd rfl hmore
    | next h _ hgone hquiet hrest =>
      rw [htodo] at h
      cases h
      exact ⟨hgone, hrest⟩
  · rintro ⟨hgone, hrest⟩
    refine next htodo hmore hgone (fun hfin => ?_) hrest
    -- a `FIN` left here is the last operation of the rest
    obtain ⟨-, peer, id, h⟩ | ⟨hno, -⟩ := Deferred.deferred_retry env { ep with deferred := todo } d
    · exact not_of_fin h hrest
    · exact hno hfin

/-- The last visit of a walk. -/
theorem last_iff (htodo : ep.deferred = [d]) :
    ep.Strands env ↔ d.LeavesFin env { ep with deferred := [] } := by
  constructor
  · intro h
    cases h with
    | last h hfin =>
      rw [htodo] at h
      cases h
      exact hfin
    | next h hmore =>
      rw [htodo] at h
      cases h
      exact absurd rfl hmore
  · exact last htodo

/-- **The walk keeps nothing and still leaves something in the queue** exactly if its
last visit strands a `FIN`. -/
theorem loop_iff {fuel : ℕ} (hfuel : visitsOf ep.deferred ≤ fuel) :
    (rdsProgressDeferredLoop env fuel [] ep).2 = []
        ∧ (rdsProgressDeferredLoop env fuel [] ep).1.deferred ≠ []
      ↔ ep.Strands env := by
  have hnone : ∀ {ep : Ep}, ep.deferred = [] → ¬ ep.Strands env := by
    intro ep hnil h
    cases h with
    | last htodo hfin =>
      rw [hnil] at htodo
      cases htodo
    | next htodo hmore hgone hquiet hrest =>
      rw [hnil] at htodo
      cases htodo
  induction fuel generalizing ep with
  | zero =>
    have hnil : ep.deferred = [] :=
      List.eq_nil_of_length_eq_zero (Nat.le_zero.mp ((Nat.le_add_right _ _).trans hfuel))
    exact iff_of_false (fun h => h.2 hnil) (hnone hnil)
  | succ fuel ih =>
    rw [rdsProgressDeferredLoop]
    cases htodo : ep.deferred with
    | nil => exact iff_of_false (fun h => h.2 htodo) (hnone htodo)
    | cons d todo =>
      dsimp only
      have hstays := rdsRetryDeferred_stays env { ep with deferred := todo } d
      by_cases hlast : todo = []
      · subst hlast
        rw [if_pos rfl, last_iff htodo]
        obtain ⟨hfin, peer, id, h⟩ | ⟨hno, h⟩ :=
          Deferred.deferred_retry env { ep with deferred := [] } d
        · have hkept := mt hstays.mp hfin.not_refused
          rw [if_neg hkept]
          exact iff_of_true ⟨rfl, by simp [h]⟩ hfin
        · exact iff_of_false (fun hleft => hleft.2 h) hno
      · rw [if_neg hlast, rdsProgressDeferredLoop_kept, next_iff htodo hlast, ← hstays]
        have hfuel : visitsOf (rdsRetryDeferred env { ep with deferred := todo } d).1.deferred
            ≤ fuel := by
          rw [htodo] at hfuel
          exact Nat.le_of_lt_succ
            ((Deferred.visitsOf_retry env { ep with deferred := todo } d).trans hfuel)
        refine Iff.trans ?_ (and_congr_right' (ih hfuel))
        cases (rdsRetryDeferred env { ep with deferred := todo } d).2 with
        | true => simp
        | false => simp

end Ep.Strands

/-- **A pass tells whether the queue drained, but for a `FIN` stranded by its last
visit.** It returns 0 exactly if the queue is empty, and `-FI_EAGAIN` otherwise, if and
only if it is not one whose last retry leaves a `FIN` behind after no retry was
refused and none before it left one. -/
theorem rdsProgressDeferred_truthful_iff (env : Env) (ep : Ep) :
    ((rdsProgressDeferred env ep).2
        = if (rdsProgressDeferred env ep).1.deferred = [] then .ok else .err fiEagain)
      ↔ ¬ ep.Strands env := by
  rw [← Ep.Strands.loop_iff (visitsOf_le ep.deferred), rdsProgressDeferred]
  obtain ⟨e, kept⟩ := rdsProgressDeferredLoop env (2 * ep.deferred.length) [] ep
  dsimp only
  by_cases hkept : kept = []
  · by_cases hleft : e.deferred = []
    · simp [hkept, hleft]
    · simp [hkept, hleft]
  · simp [hkept]

/-- The socket fails reads for good and has no room for anything else. -/
def brokenReads : Env :=
  { Env.calm (fun _ _ => .error fiEnomem) with
    sendmsg := fun _ op => if op.rdma?.isSome then some fiEio else some fiEagain }

/-- An endpoint with one parked read. -/
def withParkedRead : Ep :=
  Ep.after (EpCfg.standard false [10, 20] 10) (Domain.opened false (some 3) 0 0)
    (twoParkedReads.eraseIdx 3)

/-- The pass says that the queue drained, and leaves the `FIN` of the receive it
finalized on it. -/
theorem drained_with_a_fin_parked :
    Ep.Runs (EpCfg.standard false [10, 20] 10) (Domain.opened false (some 3) 0 0)
        (twoParkedReads.eraseIdx 3)
      ∧ withParkedRead.deferred.length = 1
      ∧ (rdsProgressDeferred brokenReads withParkedRead).2 = .ok
      ∧ (rdsProgressDeferred brokenReads withParkedRead).1.deferred = [.fin 20 5] :=
  ⟨by decide +kernel, by decide +kernel, by decide +kernel, by decide +kernel⟩
