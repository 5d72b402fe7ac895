import RdsProv.Host
import Mathlib.Algebra.BigOperators.Group.List.Basic

/-!
# Admission control for rendezvous sends

A rendezvous send pins its source until the receiver has read it, so the provider limits
how many there are and must not lose track of what they hold. After every run of a host,
the counter of each endpoint is the number of its pending sends and within the limit, and
the references to registrations are those that pending sends record, besides those of
peers to their rings and of the application to its windows
(`rendezvous_sends_accounted`).
-/

/-- How often the pending sends of an endpoint record a handle. -/
def Ep.records (ep : Ep) (isCached : Bool) (x : ℕ) : ℕ :=
  ((ep.pending.filter (fun p => p.type = .rndzvTx ∧ p.cached = isCached)).map
    (fun p => p.mrs.count x)).sum

/-- What pending operations hold is what sends record. -/
theorem count_sums {l : List Pending} (hl : ∀ p ∈ l, p.type ≠ .rndzvTx → p.hold = none) (x : ℕ) :
    (cachedSum (l.filterMap Pending.hold)).count x
        = ((l.filter (fun p => p.type = .rndzvTx ∧ p.cached = true)).map
          (fun p => p.mrs.count x)).sum
      ∧ (plainSum (l.filterMap Pending.hold)).count x
        = ((l.filter (fun p => p.type = .rndzvTx ∧ p.cached = false)).map
          (fun p => p.mrs.count x)).sum
      ∧ (l.filterMap Pending.hold).length = l.countP (·.type = .rndzvTx) := by
  induction l with
  | nil => exact ⟨rfl, rfl, rfl⟩
  | cons p l ih =>
    obtain ⟨hp, hl⟩ := List.forall_mem_cons.mp hl
    obtain ⟨hcached, hplain, hlength⟩ := ih hl
    by_cases htype : p.type = .rndzvTx
    · have hhold : p.hold = some (p.type, p.cached, p.mrs) := if_pos (.inl htype)
      rw [List.filterMap_cons_some hhold, cachedSum_cons, plainSum_cons, Multiset.count_add,
        Multiset.count_add, hcached, hplain, List.length_cons, hlength,
        List.countP_cons_of_pos (by simpa using htype), count_cachedPart, count_plainPart]
      cases hc : p.cached with
      | true =>
        rw [List.filter_cons_of_pos (by simp [htype, hc]), List.filter_cons_of_neg (by simp [hc])]
        exact ⟨List.sum_cons.symm, zero_add _, rfl⟩
      | false =>
        rw [List.filter_cons_of_neg (by simp [hc]), List.filter_cons_of_pos (by simp [htype, hc])]
        exact ⟨zero_add _, List.sum_cons.symm, rfl⟩
    · rw [List.filterMap_cons_none (hp htype), hcached, hplain, hlength,
        List.filter_cons_of_neg (by simp [htype]), List.filter_cons_of_neg (by simp [htype]),
        List.countP_cons_of_neg (by simpa using htype)]
      exact ⟨rfl, rfl, rfl⟩

/-- What one send holds, and the rest. -/
theorem Ep.held_split {ep : Ep} {p : Pending} (hp : p ∈ ep.pending) (htype : p.type = .rndzvTx) :
    ∃ cached plain, ep.cachedHeld = cachedPart p.cached p.mrs + cached
      ∧ ep.plainHeld = plainPart p.cached p.mrs + plain := by
  obtain ⟨l₁, l₂, hl⟩ := List.append_of_mem hp
  have hhold : p.hold = some (p.type, p.cached, p.mrs) := if_pos (.inl htype)
  have hholds : ep.holds = l₁.filterMap Pending.hold
      ++ (p.type, p.cached, p.mrs) :: l₂.filterMap Pending.hold := by
    unfold Ep.holds
    rw [hl, List.filterMap_append, List.filterMap_cons_some hhold]
  refine ⟨cachedSum (l₁.filterMap Pending.hold) + cachedSum (l₂.filterMap Pending.hold),
    ep.ringHeld + (plainSum (l₁.filterMap Pending.hold) + plainSum (l₂.filterMap Pending.hold)),
    ?_, ?_⟩
  · rw [Ep.cachedHeld, hholds, cachedSum_append, cachedSum_cons]
    abel
  · rw [Ep.plainHeld, hholds, plainSum_append, plainSum_cons]
    abel

/-- **Rendezvous sends are accounted for.** -/
structure Host.SendsAccounted (h : Host) : Prop where
  /-- The counter is the number of pending sends. -/
  inflight : ∀ e ∈ h.eps,
    e.ep.rndzvTxInflight.toNat = e.ep.pending.countP (·.type = .rndzvTx)
  /-- There are no more than allowed. -/
  bound : ∀ e ∈ h.eps, e.ep.rndzvTxInflight.toNat ≤ e.ep.cfg.rndzvMaxInflight
  /-- A cache entry is used as often as pending sends record it. -/
  uses : ∀ x, h.dom.useCount x = (h.eps.map (·.ep.records true x)).sum
  /-- A registration has a reference for each record of a pending send, each peer whose
  ring or credit cell it is, and the application's window. -/
  refs : ∀ x, h.dom.refCount x = (h.eps.map (·.ep.records false x)).sum
    + (h.eps.map (·.ep.ringHeld.count x)).sum + h.windows.count x
  /-- A send that fails gives back what it took. -/
  failing : ∀ e ∈ h.eps, ∀ env r, SendResult env (e.on h.dom) r → r.2 ≠ .ok → ∀ x,
    r.1.domain.useCount x = h.dom.useCount x ∧ r.1.sourceRefs x = (e.on h.dom).sourceRefs x
  /-- Completing a send gives back each reference it records, once. -/
  completing : ∀ e ∈ h.eps, ∀ p, rdsPendingFind e.ep p.id = some p → p.type = .rndzvTx → ∀ x,
    (rdsPendingComplete (e.on h.dom) p).domain.useCount x
        + (if p.cached then p.mrs.count x else 0) = h.dom.useCount x
      ∧ (rdsPendingComplete (e.on h.dom) p).domain.refCount x
        + (if p.cached then 0 else p.mrs.count x) = h.dom.refCount x

namespace Host

variable {h : Host}

theorem count_held {e : HostEp} (hm : e.ep.Metered) (x : ℕ) :
    e.ep.cachedHeld.count x = e.ep.records true x
      ∧ e.ep.plainHeld.count x = e.ep.ringHeld.count x + e.ep.records false x := by
  have hsums := count_sums (l := e.ep.pending) (fun p hp => hm.hold_eq_none hp) x
  refine ⟨hsums.1, ?_⟩
  unfold Ep.plainHeld
  rw [Multiset.count_add]
  exact congrArg (e.ep.ringHeld.count x + ·) hsums.2.1

/-- The counts of a sum are the sum of the counts. -/
theorem count_sum_map (l : List HostEp) (f : HostEp → Multiset ℕ) (x : ℕ) :
    (l.map f).sum.count x = (l.map (fun e => (f e).count x)).sum := by
  induction l with
  | nil => rfl
  | cons e l ih =>
    rw [List.map_cons, List.sum_cons, Multiset.count_add, ih, List.map_cons, List.sum_cons]

/-- The domain of an endpoint that acts, with everyone else's holdings. -/
theorem Kept.custody_on (hk : h.Kept) {e : HostEp} (he : e ∈ h.eps) :
    ∃ cached plain, (e.on h.dom).domain.Custody False ((e.on h.dom).cachedHeld + cached)
      ((e.on h.dom).plainHeld + plain) := by
  obtain ⟨l₁, l₂, heps⟩ := List.append_of_mem he
  have hsums := sums_split heps
  have hcust := hk.custody
  rw [hsums.1, hsums.2] at hcust
  exact ⟨_, _, hcust⟩

theorem Kept.sendsAccounted (hk : h.Kept) : h.SendsAccounted where
  inflight e he := by
    have hm := hk.metered e he
    rw [hm.inflight]
    exact (count_sums (fun p hp => hm.hold_eq_none hp) 0).2.2
  bound e he := by
    have hm := hk.metered e he
    rw [hm.inflight]
    exact hm.bound
  uses x := by
    rw [hk.custody.useCount, cachedHeld, count_sum_map]
    exact congrArg List.sum (List.map_congr_left (fun e he => (count_held (hk.metered e he) x).1))
  refs x := by
    rw [hk.custody.refCount, plainHeld, Multiset.count_add, count_sum_map, Multiset.coe_count]
    have hplain : h.eps.map (fun e => e.ep.plainHeld.count x)
        = h.eps.map (fun e => e.ep.ringHeld.count x + e.ep.records false x) :=
      List.map_congr_left (fun e he => (count_held (hk.metered e he) x).2)
    rw [hplain, List.sum_map_add, add_comm (List.sum _)]
  failing e he env r hr hret x := by
    obtain ⟨cached, plain, hcust⟩ := hk.custody_on he
    unfold Ep.plainHeld at hcust
    rw [add_assoc] at hcust
    obtain ⟨-, hquiet⟩ | ⟨hok, -⟩ := hr.cases
    · exact ⟨(hquiet.undone hcust).cacheUses x, (hquiet.undone hcust).sourceRefs x⟩
    · exact absurd hok hret
  completing e he p hfind htype x := by
    obtain ⟨cached, plain, hcust⟩ := hk.custody_on he
    obtain ⟨cached', plain', hcached, hplain⟩ :=
      Ep.held_split (show p ∈ (e.on h.dom).pending from List.mem_of_find?_eq_some hfind) htype
    rw [hcached, hplain, add_assoc, add_assoc] at hcust
    have hafter := Domain.Custody.unregChunks p.cached p.mrs hcust
    rw [rdsPendingComplete_eq, hafter.useCount, hafter.refCount,
      show h.dom.useCount x = _ from hcust.useCount x,
      show h.dom.refCount x = _ from hcust.refCount x, Multiset.count_add _ (plainPart _ _),
      Multiset.count_add _ (cachedPart _ _), count_cachedPart, count_plainPart]
    exact ⟨add_comm _ _, add_comm _ _⟩

/-- **Admission control.** After every run of a host – endpoints opened, enabled and closed,
sends accepted and refused, messages, `FIN`s and notifications of any kind taken in,
deferred queues walked, windows registered and closed, the cache invalidated and flushed –
every rendezvous send is accounted for. -/
theorem rendezvous_sends_accounted (cacheEnabled : Bool) (maxCnt maxSize : ℕ)
    (acts : List HostAct) (hrun : Runs cacheEnabled maxCnt maxSize acts) :
    (Host.after cacheEnabled maxCnt maxSize acts).SendsAccounted :=
  (Kept.after hrun).sendsAccounted

/-- One endpoint, a rendezvous send. -/
def oneSend : List HostAct :=
  [.openEp (EpCfg.standard false [10, 20] 10), .enable 3,
    .ep 3 (.send (Env.calm (fun calls _ => .ok (UInt64.ofNat calls.length))) [⟨4096, 65537⟩]
      1 0 0 7 0 false)]

/-- The send of that run is accounted for. -/
theorem oneSend_accounted :
    Runs true 1024 268435456 oneSend
      ∧ (Host.after true 1024 268435456 oneSend).SendsAccounted := by
  have hrun : Runs true 1024 268435456 oneSend := by
    refine ⟨⟨List.not_mem_nil, _, configures_standard false _ _⟩, trivial,
      ⟨_, rfl, trivial, ?_, ?_⟩, trivial⟩
    · exact fun _ h => by cases h
    · exact fun _ h => by cases h
  exact ⟨hrun, rendezvous_sends_accounted true 1024 268435456 oneSend hrun⟩

end Host
