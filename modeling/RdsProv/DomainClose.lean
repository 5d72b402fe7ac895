import RdsProv.Host

/-!
# Closing a domain

`rds_domain_close` takes down the registration cache and then asks `ofi_domain_close`
whether the domain may be closed. It may not while an object opened on it is still there;
the call then fails with `FI_EBUSY`, and the domain goes on to be used. The cache does not
come back: it was flushed, its entries – also those that rendezvous sends still hold – went
with their pool, and it is no longer enabled.

The order has a reason: the cache itself holds a reference to the domain, so with the
cache in place the count never reaches zero. `rds_ep_close`, which has no such reference to
drop, looks at its count first.

`rdsDomainClose_keeps_iff` says exactly when a refused close does no harm, and
`rdsDomainClose_strands` what the harm is.
-/

/-! ## The call -/

/-- The loop at the start of `ofi_mr_cache_cleanup`: flush until nothing is left to
flush. -/
def ofiMrCacheCleanupLoop : ℕ → Domain → Domain
  | 0, dom => dom
  | fuel + 1, dom =>
    match ofiMrCacheFlush dom true with
    | (dom, true) => ofiMrCacheCleanupLoop fuel dom
    | (dom, false) => dom

/-- `ofi_mr_cache_cleanup`: flush, then clear the tree and destroy the pool the entries
live in. -/
def ofiMrCacheCleanup (dom : Domain) : Domain :=
  let dom := ofiMrCacheCleanupLoop (dom.cache.lru.length + dom.cache.dead.length + 1) dom
  { dom with cache := { dom.cache with entries := [], lru := [], dead := [], pool := [] } }

/-- `rds_mr_cache_close`. -/
def rdsMrCacheClose (dom : Domain) : Domain :=
  if dom.cacheEnabled then { ofiMrCacheCleanup dom with cacheEnabled := false } else dom

/-- The reference count of a domain on which a number of objects – endpoints, address
vectors, completion queues, counters – is open: one for each, and one for the cache. -/
def Domain.ref (dom : Domain) (objects : ℕ) : ℕ := objects + if dom.cacheEnabled then 1 else 0

/-- `ofi_domain_close`, up to what it frees. -/
def ofiDomainClose (dom : Domain) (objects : ℕ) : Option ℕ+ :=
  if dom.ref objects ≠ 0 then some fiEbusy else none

/-- `rds_domain_close`: the domain it leaves and the error it returns. -/
def rdsDomainClose (dom : Domain) (objects : ℕ) : Domain × Option ℕ+ :=
  let dom := rdsMrCacheClose dom
  (dom, ofiDomainClose dom objects)

/-! ## The flush loop ends -/

theorem lru_utilMrFreeEntry (dom : Domain) (x : ℕ) :
    (utilMrFreeEntry dom x).cache.lru = dom.cache.lru
      ∧ (utilMrFreeEntry dom x).cache.dead = dom.cache.dead := by
  unfold utilMrFreeEntry
  split
  · exact ⟨rfl, rfl⟩
  · unfold rdsCacheDeleteRegion
    split <;> exact ⟨rfl, rfl⟩

theorem lru_foldl_utilMrFreeEntry (l : List ℕ) (dom : Domain) :
    (l.foldl utilMrFreeEntry dom).cache.lru = dom.cache.lru
      ∧ (l.foldl utilMrFreeEntry dom).cache.dead = dom.cache.dead := by
  induction l generalizing dom with
  | nil => exact ⟨rfl, rfl⟩
  | cons x l ih =>
    obtain ⟨hlru, hdead⟩ := ih (utilMrFreeEntry dom x)
    obtain ⟨hlru', hdead'⟩ := lru_utilMrFreeEntry dom x
    exact ⟨hlru.trans hlru', hdead.trans hdead'⟩

/-- The LRU loop takes what it evicts off the front of the list. -/
theorem evictLru_split (lru : List ℕ) (c : MrCache) (hlru : c.lru = lru) (flushLru : Bool) :
    (evictLru lru c flushLru).2 ++ (evictLru lru c flushLru).1.lru = lru
      ∧ (evictLru lru c flushLru).1.dead = c.dead := by
  induction lru generalizing c flushLru with
  | nil => exact ⟨by rw [evictLru, hlru]; rfl, rfl⟩
  | cons x lru ih =>
    rw [evictLru]
    split
    · obtain ⟨hsplit, hdead⟩ := ih { c.uncacheStorage x with lru := lru } rfl
        (MrCache.full { c.uncacheStorage x with lru := lru })
      exact ⟨congrArg (x :: ·) hsplit, hdead⟩
    · exact ⟨hlru, rfl⟩

/-- Asked to, the LRU loop evicts something if there is anything. -/
theorem evictLru_eq_nil {lru : List ℕ} {c : MrCache} (h : (evictLru lru c true).2 = []) :
    lru = [] := by
  cases lru with
  | nil => rfl
  | cons x lru =>
    rw [evictLru, if_pos rfl] at h
    cases h

/-- **A flush that frees something leaves less to flush**, and one that frees nothing had
nothing to free. -/
theorem ofiMrCacheFlush_lists {dom d : Domain} {freed : Bool}
    (h : ofiMrCacheFlush dom true = (d, freed)) :
    (freed = true → d.cache.lru.length + d.cache.dead.length
        < dom.cache.lru.length + dom.cache.dead.length)
      ∧ (freed = false → d.cache.lru = [] ∧ d.cache.dead = []) := by
  obtain ⟨hsplit, hdead⟩ := evictLru_split dom.cache.lru { dom.cache with dead := [] } rfl true
  have hall : (evictLru dom.cache.lru { dom.cache with dead := [] } true).2 = [] →
      dom.cache.lru = [] := evictLru_eq_nil
  unfold ofiMrCacheFlush at h
  dsimp only at h
  generalize evictLru dom.cache.lru { dom.cache with dead := [] } true = ev at h hsplit hdead hall
  obtain ⟨hl, hd⟩ := lru_foldl_utilMrFreeEntry (dom.cache.dead ++ ev.2) { dom with cache := ev.1 }
  obtain ⟨rfl, rfl⟩ := Prod.mk.inj h
  rw [hl, hd]
  dsimp only
  rw [hdead, List.length_nil, Nat.add_zero]
  have hlen : ev.2.length + ev.1.lru.length = dom.cache.lru.length := by
    rw [← hsplit, List.length_append]
  constructor
  · intro hfreed
    have hpos : dom.cache.dead ++ ev.2 ≠ [] := bne_iff_ne.mp hfreed
    have := List.length_pos_of_ne_nil hpos
    rw [List.length_append] at this
    omega
  · intro hfreed
    have hnil : dom.cache.dead ++ ev.2 = [] := by simpa using hfreed
    have hev := (List.append_eq_nil_iff.mp hnil).2
    rw [hev, List.nil_append, hall hev] at hsplit
    exact ⟨hsplit, rfl⟩

/-- **The flush loop ends with both lists empty**: what it is given is enough. -/
theorem ofiMrCacheCleanupLoop_lists (fuel : ℕ) (dom : Domain)
    (hfuel : dom.cache.lru.length + dom.cache.dead.length < fuel) :
    (ofiMrCacheCleanupLoop fuel dom).cache.lru = []
      ∧ (ofiMrCacheCleanupLoop fuel dom).cache.dead = [] := by
  induction fuel generalizing dom with
  | zero => omega
  | succ fuel ih =>
    rw [ofiMrCacheCleanupLoop]
    rcases hflush : ofiMrCacheFlush dom true with ⟨d, freed⟩
    obtain ⟨hless, hdone⟩ := ofiMrCacheFlush_lists hflush
    cases freed with
    | true => exact ih d (by have := hless rfl; omega)
    | false => exact hdone rfl

/-! ## What is lost -/

/-- A property that flushing keeps, the flush loop keeps. -/
theorem ofiMrCacheCleanupLoop_induct {motive : Domain → Prop}
    (hflush : ∀ dom, motive dom → motive (ofiMrCacheFlush dom true).1) (fuel : ℕ) {dom : Domain}
    (h : motive dom) : motive (ofiMrCacheCleanupLoop fuel dom) := by
  induction fuel generalizing dom with
  | zero => exact h
  | succ fuel ih =>
    have hnext := hflush dom h
    rw [ofiMrCacheCleanupLoop]
    rcases hround : ofiMrCacheFlush dom true with ⟨d, freed⟩
    rw [hround] at hnext
    cases freed with
    | true => exact ih hnext
    | false => exact hnext

/-- There is no cache after it is closed, whether there was one or not. -/
theorem cacheEnabled_rdsMrCacheClose (dom : Domain) :
    (rdsMrCacheClose dom).cacheEnabled = false := by
  unfold rdsMrCacheClose
  split
  · rfl
  · rename_i hoff
    exact Bool.not_eq_true _ ▸ hoff

/-- A close, refused or not, of a domain with a cache leaves it without one. -/
theorem rdsDomainClose_of_enabled {dom : Domain} (henabled : dom.cacheEnabled = true)
    (objects : ℕ) :
    (rdsDomainClose dom objects).1.cacheEnabled = false
      ∧ (rdsDomainClose dom objects).1.cache.entries = [] := by
  refine ⟨cacheEnabled_rdsMrCacheClose dom, ?_⟩
  unfold rdsDomainClose rdsMrCacheClose
  dsimp only
  rw [if_pos henabled]
  rfl

/-- **What a refused close costs.** From then on no search of the cache is made, and
releasing an entry does nothing; so whatever a pending send holds in the cache stays
registered with the kernel and nothing is left that would ever free it. -/
theorem rdsDomainClose_strands {dom : Domain} {cached plain : Multiset ℕ}
    (h : dom.Custody True cached plain) (henabled : dom.cacheEnabled = true) (objects : ℕ) :
    (∀ env r, rdsRegCacheGet env (rdsDomainClose dom objects).1 r
        = ((rdsDomainClose dom objects).1, .error fiEnosys))
      ∧ (∀ hs, rdsUnregChunks true (rdsDomainClose dom objects).1 hs
        = (rdsDomainClose dom objects).1)
      ∧ ∀ e ∈ dom.cache.entries, e.handle ∈ cached →
        isLive (rdsDomainClose dom objects).1.kcalls e.cookie = true := by
  obtain ⟨hoff, hnone⟩ := rdsDomainClose_of_enabled henabled objects
  refine ⟨fun env r => ?_, fun hs => ?_, fun e he hheld => ?_⟩
  · unfold rdsRegCacheGet
    rw [hoff]
    rfl
  · induction hs with
    | nil => rfl
    | cons x hs ih =>
      have hput : rdsRegCachePut (rdsDomainClose dom objects).1 x
          = (rdsDomainClose dom objects).1 := by
        unfold rdsRegCachePut ofiMrCacheDelete
        rw [hnone]
        rfl
      unfold rdsUnregChunks at ih ⊢
      rw [List.foldl_cons, if_pos rfl, hput]
      exact ih
  · have hkept : dom.Shrinks (ofiMrCacheCleanupLoop
          (dom.cache.lru.length + dom.cache.dead.length + 1) dom)
        ∧ (ofiMrCacheCleanupLoop (dom.cache.lru.length + dom.cache.dead.length + 1) dom).Custody
          True cached plain :=
      ofiMrCacheCleanupLoop_induct (motive := fun d => dom.Shrinks d ∧ d.Custody True cached plain)
        (fun d hd => ⟨hd.1.trans (.flush d true), hd.2.flush true⟩) _ ⟨.refl dom, h⟩
    obtain ⟨e', he', hcore⟩ := h.held_survives hkept.2 (.of_shrinks hkept.1) he hheld
    have hlive := (hkept.2.owned trivial).live (List.mem_append_left _ (List.mem_map_of_mem he'))
    have hcookie : e'.held.1 = e.cookie := congrArg (fun k => k.2.2) hcore
    rw [hcookie] at hlive
    unfold rdsDomainClose rdsMrCacheClose
    dsimp only
    rw [if_pos henabled]
    exact hlive

/-- **A refused close leaves the domain as it was exactly if** there was no cache to take
down; otherwise nothing may refer to the domain, and the close is not refused. -/
theorem rdsDomainClose_keeps_iff (dom : Domain) (objects : ℕ) :
    (∀ e, (rdsDomainClose dom objects).2 = some e → (rdsDomainClose dom objects).1 = dom)
      ↔ dom.cacheEnabled = false ∨ objects = 0 := by
  constructor
  · intro hkeeps
    by_contra hcond
    obtain ⟨henabled, hobjects⟩ := not_or.mp hcond
    have henabled : dom.cacheEnabled = true := by simpa using henabled
    obtain ⟨hoff, -⟩ := rdsDomainClose_of_enabled henabled objects
    have hrefused : (rdsDomainClose dom objects).2 = some fiEbusy :=
      if_pos (by unfold Domain.ref; omega)
    rw [hkeeps fiEbusy hrefused, henabled] at hoff
    cases hoff
  · rintro (hoff | rfl) e he
    · unfold rdsDomainClose rdsMrCacheClose
      dsimp only
      rw [hoff]
      rfl
    · -- nothing refers to the domain, and the cache gave up its reference
      have hok : (rdsDomainClose dom 0).2 = none := by
        refine if_neg (not_not.mpr ?_)
        unfold Domain.ref
        rw [cacheEnabled_rdsMrCacheClose]
        rfl
      rw [hok] at he
      cases he

/-- A rendezvous send registered its source through the cache and waits for its FIN when
the application closes the domain, its endpoint still open. The close is refused, and the
cache is gone. Had it not been, the FIN would have put the entry on the list of unused
ones, for the next send from the same buffer; as it is, the FIN releases nothing, the
region stays pinned and the next send does not find a cache. -/
theorem refused_close_takes_the_cache :
    let sent := rdsRegChunks (Env.calm (fun _ _ => .ok 1)) 3 true [⟨4096, 20000⟩]
      (Domain.opened true (some 3) 1024 (2 ^ 28))
    let dom := sent.1
    let refused := rdsDomainClose dom 1
    sent.2.2 = ([0], none)
      ∧ refused.2 = some fiEbusy
      ∧ dom.cacheEnabled = true ∧ dom.cache.entries = [⟨0, ⟨4096, 20000⟩, 1, 1, true⟩]
      ∧ refused.1.cacheEnabled = false ∧ refused.1.cache.entries = []
      ∧ (rdsUnregChunks true dom [0]).cache.lru = [0]
      ∧ (rdsUnregChunks true refused.1 [0]).cache.lru = []
      ∧ isLive (rdsUnregChunks true refused.1 [0]).kcalls 1 = true := by
  decide +kernel
