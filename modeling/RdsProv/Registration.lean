import RdsProv.Mr
import Mathlib.Data.List.Nodup

/-!
# What a registered segment denotes

A segment of a request names a cookie, an offset and a length. The cookie stands
for the region it was last returned for, until it is freed; the kernel may return it
again after that, for another region. So the segment denotes the bytes that start
`off` bytes into that region – which is what the receiver's RDMA read fetches.

With the cache a chunk may be served by an entry whose region merely contains it
(`servedRegion`). What the cache does is told here by three relations. Everything
but creating an entry only forgets (`Domain.Shrinks`); creating one appends it or
leaves the entries as they were (`utilMrCacheCreate_entries`); and so an entry is
never replaced by another of its handle (`Domain.Recalls`).
-/

/-! ## Denotation -/

/-- The region a cookie stands for: the last one it was returned for, unless it was
freed since. -/
def regionOf (calls : List KernelCall) (cookie : UInt64) : Option Region :=
  calls.foldl (fun known k => match k with
    | .getMr _ r c => if c = cookie then some r else known
    | .freeMr _ c => if c = cookie then none else known) none

theorem regionOf_append_getMr (calls : List KernelCall) (s : ℕ) (r : Region) (c cookie : UInt64) :
    regionOf (calls ++ [.getMr s r c]) cookie
      = if c = cookie then some r else regionOf calls cookie := by
  unfold regionOf
  rw [List.foldl_append]
  rfl

theorem regionOf_append_freeMr (calls : List KernelCall) (s : ℕ) (c cookie : UInt64) :
    regionOf (calls ++ [.freeMr s c]) cookie
      = if c = cookie then none else regionOf calls cookie := by
  unfold regionOf
  rw [List.foldl_append]
  rfl

/-- **The bytes a segment denotes**: an RDMA read of the cookie at the offset
starts that many bytes into the registered region. -/
def Seg.denotes (calls : List KernelCall) (s : Seg) : Option Region :=
  (regionOf calls s.cookie).map (fun r => ⟨r.base + s.off.toNat, s.len.toNat⟩)

/-! ## What the cache forgets -/

/-- The part of an entry that identifies a registration. -/
def CacheEntry.core (e : CacheEntry) : ℕ × Region × UInt64 := (e.handle, e.iov, e.cookie)

/-- **Everything but creation only forgets**: entries disappear or leave the
tree. -/
structure Domain.Shrinks (dom dom' : Domain) : Prop where
  entries : (dom'.cache.entries.map CacheEntry.core).Sublist
    (dom.cache.entries.map CacheEntry.core)
  tree : ∀ e ∈ dom'.cache.tree, ∃ e₀ ∈ dom.cache.tree, e₀.core = e.core
  next : dom'.nextHandle = dom.nextHandle

namespace Domain.Shrinks

theorem refl (dom : Domain) : dom.Shrinks dom :=
  ⟨List.Sublist.refl _, fun e he => ⟨e, he, rfl⟩, rfl⟩

/-- Fields the cache does not look at. -/
theorem of_eq {dom dom' : Domain} (hcache : dom'.cache = dom.cache)
    (hnext : dom'.nextHandle = dom.nextHandle) : dom.Shrinks dom' where
  entries := by rw [hcache]
  tree e he := ⟨e, hcache ▸ he, rfl⟩
  next := hnext

theorem of_tick (dom : Domain) (t : ℕ) : dom.Shrinks { dom with tick := t } := of_eq rfl rfl

theorem trans {d₁ d₂ d₃ : Domain} (h : d₁.Shrinks d₂) (h' : d₂.Shrinks d₃) :
    d₁.Shrinks d₃ where
  entries := h'.entries.trans h.entries
  tree e he := by
    obtain ⟨e₂, he₂, hcore₂⟩ := h'.tree e he
    obtain ⟨e₁, he₁, hcore₁⟩ := h.tree e₂ he₂
    exact ⟨e₁, he₁, hcore₁.trans hcore₂⟩
  next := h'.next.trans h.next

/-- A fold of steps that only forget only forgets. -/
theorem foldl {α : Type} {f : Domain → α → Domain} (hf : ∀ (dom : Domain) a, dom.Shrinks (f dom a))
    (l : List α) (dom : Domain) : dom.Shrinks (l.foldl f dom) := by
  induction l generalizing dom with
  | nil => exact refl dom
  | cons a l ih => exact (hf dom a).trans (ih (f dom a))

/-- Replacing only the bookkeeping of the cache: entries are changed one by one,
keeping their registration and gaining no tree node. -/
theorem of_map {dom : Domain} (c : MrCache) (f : CacheEntry → CacheEntry)
    (hentries : c.entries = dom.cache.entries.map f) (hcore : ∀ e, (f e).core = e.core)
    (htree : ∀ e, (f e).inTree = true → e.inTree = true) :
    dom.Shrinks { dom with cache := c } where
  entries := by
    have : c.entries.map CacheEntry.core = dom.cache.entries.map CacheEntry.core := by
      rw [hentries, List.map_map]
      exact List.map_congr_left (fun e _ => hcore e)
    show (c.entries.map _).Sublist _
    rw [this]
  tree e he := by
    have he : e ∈ c.entries.filter (·.inTree) := he
    rw [List.mem_filter, hentries, List.mem_map] at he
    obtain ⟨⟨e₀, he₀, rfl⟩, hin⟩ := he
    exact ⟨e₀, List.mem_filter.mpr ⟨he₀, htree e₀ hin⟩, (hcore e₀).symm⟩
  next := rfl

theorem kernelFree (dom : Domain) (sock : ℕ) (cookie : UInt64) :
    dom.Shrinks (rdsKernelFree dom sock cookie) := of_eq rfl rfl

theorem modify (dom : Domain) (h : ℕ) (f : CacheEntry → CacheEntry)
    (hcore : ∀ e, (f e).core = e.core) (htree : ∀ e, (f e).inTree = true → e.inTree = true) :
    dom.Shrinks { dom with cache := dom.cache.modify h f } := by
  refine of_map _ (fun e => if e.handle = h then f e else e) rfl (fun e => ?_) (fun e he => ?_)
  · split
    · exact hcore e
    · rfl
  · split at he
    · exact htree e he
    · exact he

/-- Replacing only the lists of handles. -/
theorem of_entries_eq {dom : Domain} (c : MrCache) (h : c.entries = dom.cache.entries) :
    dom.Shrinks { dom with cache := c } :=
  of_map c id (by rw [h, List.map_id]) (fun _ => rfl) (fun _ he => he)

theorem uncacheStorage (dom : Domain) (h : ℕ) :
    dom.Shrinks { dom with cache := dom.cache.uncacheStorage h } :=
  modify dom h _ (fun _ => rfl) (fun _ he => by cases he)

theorem uncache (dom : Domain) (e : CacheEntry) :
    dom.Shrinks { dom with cache := dom.cache.uncache e } := by
  refine (uncacheStorage dom e.handle).trans ?_
  rw [MrCache.uncache]
  split
  · exact of_entries_eq _ rfl
  · exact refl _

theorem foldl_uncache (l : List CacheEntry) (dom : Domain) :
    dom.Shrinks { dom with cache := l.foldl MrCache.uncache dom.cache } := by
  induction l generalizing dom with
  | nil => exact refl dom
  | cons e l ih => exact (uncache dom e).trans (ih { dom with cache := dom.cache.uncache e })

theorem deleteRegion (dom : Domain) (cookie : UInt64) :
    dom.Shrinks (rdsCacheDeleteRegion dom cookie) := by
  unfold rdsCacheDeleteRegion
  split
  · exact refl dom
  · exact kernelFree dom _ cookie

theorem freeEntry (dom : Domain) (h : ℕ) : dom.Shrinks (utilMrFreeEntry dom h) := by
  unfold utilMrFreeEntry
  split
  · exact refl dom
  · refine (deleteRegion dom _).trans ⟨?_, fun e he => ?_, rfl⟩
    · exact List.Sublist.map _ List.filter_sublist
    · have he := List.mem_filter.mp he
      exact ⟨e, List.mem_filter.mpr ⟨(List.mem_filter.mp he.1).1, he.2⟩, rfl⟩

theorem evict (l : List ℕ) (dom : Domain) (flushLru : Bool) :
    dom.Shrinks { dom with cache := (evictLru l dom.cache flushLru).1 } := by
  induction l generalizing dom flushLru with
  | nil => exact refl dom
  | cons h l ih =>
    rw [evictLru]
    split
    · have hpop : Domain.Shrinks { dom with cache := dom.cache.uncacheStorage h }
          { dom with cache := { dom.cache.uncacheStorage h with lru := l } } :=
        of_entries_eq _ rfl
      exact ((uncacheStorage dom h).trans hpop).trans (ih _ _)
    · exact refl dom

theorem mrPut (dom : Domain) (h : ℕ) : dom.Shrinks (rdsMrPut dom h) := by
  unfold rdsMrPut
  split
  · exact refl dom
  split
  · exact of_eq rfl rfl
  · exact of_eq rfl rfl

theorem cacheDelete (dom : Domain) (h : ℕ) : dom.Shrinks (ofiMrCacheDelete dom h) := by
  unfold ofiMrCacheDelete
  split
  · exact refl dom
  have hdrop := modify dom h (fun e => { e with useCnt := e.useCnt - 1 }) (fun _ => rfl)
    (fun _ he => he)
  dsimp only
  split
  · exact hdrop
  split
  · exact hdrop.trans (of_entries_eq _ rfl)
  · exact hdrop.trans (freeEntry _ h)

theorem unregChunks (cached : Bool) (dom : Domain) (hs : List ℕ) :
    dom.Shrinks (rdsUnregChunks cached dom hs) := by
  cases cached with
  | true => exact foldl cacheDelete hs dom
  | false => exact foldl mrPut hs dom

theorem flush (dom : Domain) (flushLru : Bool) :
    dom.Shrinks (ofiMrCacheFlush dom flushLru).1 := by
  have hdead : dom.Shrinks { dom with cache := { dom.cache with dead := [] } } :=
    of_entries_eq _ rfl
  exact (hdead.trans (evict _ { dom with cache := { dom.cache with dead := [] } } _)).trans
    (foldl freeEntry _ _)

end Domain.Shrinks

/-! ## Creating an entry -/

/-- Every entry has a handle that was given out. -/
def Domain.Numbered (dom : Domain) : Prop := ∀ e ∈ dom.cache.entries, e.handle < dom.nextHandle

theorem Domain.Shrinks.numbered {dom dom' : Domain} (h : dom.Shrinks dom')
    (hnum : dom.Numbered) : dom'.Numbered := by
  intro e he
  obtain ⟨e₀, he₀, hcore⟩ := List.mem_map.mp (h.entries.subset (List.mem_map_of_mem he))
  have hhandle : e₀.handle = e.handle := congrArg Prod.fst hcore
  rw [h.next, ← hhandle]
  exact hnum e₀ he₀

/-- Changing the entry with the next handle changes none that is there. -/
theorem Domain.Numbered.map_entries {dom : Domain} (h : dom.Numbered)
    (f : CacheEntry → CacheEntry) :
    dom.cache.entries.map (fun e => if e.handle = dom.nextHandle then f e else e)
      = dom.cache.entries := by
  conv_rhs => rw [← List.map_id dom.cache.entries]
  refine List.map_congr_left (fun x hx => ?_)
  rw [if_neg (h x hx).ne]
  rfl

/-- A domain whose cache has a newly registered entry, not in the tree yet. -/
def Domain.withEntry (dom : Domain) (s : ℕ) (r : Region) (c : UInt64) : Domain :=
  { dom with
    nextHandle := dom.nextHandle + 1
    kcalls := dom.kcalls ++ [.getMr s r c]
    cache := { dom.cache with
      entries := dom.cache.entries ++ [⟨dom.nextHandle, r, c, 1, false⟩]
      pool := dom.cache.pool.tail } }

/-- **`add_region` of a new entry** fails and leaves it with its old cookie, or
registers it. -/
theorem rdsCacheAddRegion_cases (env : Env) {dom : Domain} (hnum : dom.Numbered) (r : Region) :
    (∃ err, rdsCacheAddRegion env (utilMrEntryAlloc dom r) dom.nextHandle r
          = (utilMrEntryAlloc dom r, some err)
        ∧ (dom.regEp = none ∨ rdsKernelSegMax < r.len ∨ ∃ e, env.getMr dom.kcalls r = .error e))
      ∨ ∃ s c, dom.regEp = some s ∧ env.getMr dom.kcalls r = .ok c
        ∧ rdsCacheAddRegion env (utilMrEntryAlloc dom r) dom.nextHandle r
          = (dom.withEntry s r c, none) := by
  have hregEp : (utilMrEntryAlloc dom r).regEp = dom.regEp := rfl
  have hkcalls : (utilMrEntryAlloc dom r).kcalls = dom.kcalls := rfl
  unfold rdsCacheAddRegion
  rw [hregEp]
  cases dom.regEp with
  | none => exact .inl ⟨_, rfl, .inl rfl⟩
  | some s =>
    unfold rdsKernelReg
    dsimp only
    by_cases hlen : rdsKernelSegMax < r.len
    · rw [if_pos hlen]
      exact .inl ⟨_, rfl, .inr (.inl hlen)⟩
    rw [if_neg hlen, hkcalls]
    cases hc : env.getMr dom.kcalls r with
    | error e => exact .inl ⟨_, rfl, .inr (.inr ⟨e, rfl⟩)⟩
    | ok c =>
      refine .inr ⟨s, c, rfl, rfl, ?_⟩
      have hentries : (dom.cache.entries ++ [(⟨dom.nextHandle, r, dom.cache.pool.headD 0, 1,
          false⟩ : CacheEntry)]).map (fun e =>
          if e.handle = dom.nextHandle then { e with cookie := c } else e)
          = dom.cache.entries ++ [⟨dom.nextHandle, r, c, 1, false⟩] := by
        rw [List.map_append, hnum.map_entries]
        simp
      unfold Domain.withEntry
      rw [← hentries]
      rfl

/-- Freeing the newest entry leaves those there were. -/
theorem utilMrFreeEntry_last {dom : Domain} {l : List CacheEntry} {e : CacheEntry}
    (hentries : dom.cache.entries = l ++ [e]) (hnew : ∀ x ∈ l, x.handle ≠ e.handle) :
    utilMrFreeEntry dom e.handle = { rdsCacheDeleteRegion dom e.cookie with
      cache := { dom.cache with entries := l, pool := e.cookie :: dom.cache.pool } } := by
  have hfind : (l ++ [e]).find? (·.handle == e.handle) = some e := by
    rw [List.find?_append, List.find?_eq_none.mpr (fun x hx => by simpa using hnew x hx)]
    simp
  have hfilter : (l ++ [e]).filter (·.handle != e.handle) = l := by
    rw [List.filter_append, List.filter_eq_self.mpr (fun x hx => by simpa using hnew x hx)]
    simp
  have hcache : (rdsCacheDeleteRegion dom e.cookie).cache = dom.cache := by
    unfold rdsCacheDeleteRegion
    split <;> rfl
  unfold utilMrFreeEntry
  rw [hentries, hfind]
  dsimp only
  rw [hcache, hentries, hfilter]

/-- What creating an entry does to the entries: the new one comes last, or is gone. -/
def Domain.Creates (dom dom' : Domain) (r : Region) : Except ℕ+ ℕ → Prop
  | .error _ => dom'.cache.entries = dom.cache.entries
  | .ok h => ∃ e, e.handle = dom.nextHandle ∧ h = dom.nextHandle ∧ e.iov = r
      ∧ dom'.cache.entries = dom.cache.entries ++ [e] ∧ dom'.nextHandle = dom.nextHandle + 1

/-- **Creating an entry.** -/
theorem utilMrCacheCreate_entries (env : Env) {dom : Domain} (hnum : dom.Numbered) (r : Region)
    {dom' : Domain} {res : Except ℕ+ ℕ} (heq : utilMrCacheCreate env dom r = (dom', res)) :
    dom.Creates dom' r res ∧ dom.nextHandle ≤ dom'.nextHandle := by
  have hnew : ∀ x ∈ dom.cache.entries, x.handle ≠ dom.nextHandle := fun x hx => (hnum x hx).ne
  -- an entry that is abandoned was the last
  have hfree (d : Domain) (e : CacheEntry) (hd : d.cache.entries = dom.cache.entries ++ [e])
      (he : e.handle = dom.nextHandle) (hnext : d.nextHandle = dom.nextHandle + 1) :
      (utilMrFreeEntry d dom.nextHandle).cache.entries = dom.cache.entries
        ∧ dom.nextHandle ≤ (utilMrFreeEntry d dom.nextHandle).nextHandle := by
    rw [(Domain.Shrinks.freeEntry d dom.nextHandle).next, hnext]
    rw [← he] at hnew ⊢
    rw [utilMrFreeEntry_last hd hnew]
    exact ⟨rfl, Nat.le_succ _⟩
  unfold utilMrCacheCreate at heq
  dsimp only at heq
  split at heq
  · cases heq
    exact ⟨rfl, le_rfl⟩
  obtain ⟨err, hadd, -⟩ | ⟨s, c, -, -, hadd⟩ := rdsCacheAddRegion_cases env
    (show Domain.Numbered { dom with tick := dom.tick + 1 } from hnum) r
  · rw [hadd] at heq
    cases heq
    exact hfree (utilMrEntryAlloc { dom with tick := dom.tick + 1 } r) _ rfl rfl rfl
  rw [hadd] at heq
  have habandon (t : ℕ) := hfree
    { Domain.withEntry { dom with tick := dom.tick + 1 } s r c with tick := t } _ rfl rfl rfl
  dsimp only at heq
  split at heq
  · cases heq
    exact habandon _
  split at heq
  · cases heq
    exact habandon _
  split at heq
  · cases heq
    exact ⟨⟨_, rfl, rfl, rfl, rfl, rfl⟩, Nat.le_succ _⟩
  · cases heq
    refine ⟨⟨⟨dom.nextHandle, r, c, 1, true⟩, rfl, rfl, rfl, ?_, rfl⟩, Nat.le_succ _⟩
    show (dom.cache.entries ++ [_]).map _ = _
    rw [List.map_append, hnum.map_entries]
    simp

/-- **No entry is replaced**: the one with a handle that was given out is the one it was. -/
structure Domain.Recalls (dom dom' : Domain) : Prop where
  entries : ∀ e ∈ dom'.cache.entries, e.handle < dom.nextHandle →
    ∃ e₀ ∈ dom.cache.entries, e₀.core = e.core
  next : dom.nextHandle ≤ dom'.nextHandle

namespace Domain.Recalls

variable {dom d d' : Domain}

theorem of_shrinks (h : dom.Shrinks d) : dom.Recalls d where
  entries _ he _ := List.mem_map.mp (h.entries.subset (List.mem_map_of_mem he))
  next := h.next.ge

theorem trans (h : dom.Recalls d) (h' : d.Recalls d') : dom.Recalls d' where
  entries e he hold := by
    obtain ⟨e₂, he₂, hcore₂⟩ := h'.entries e he (hold.trans_le h.next)
    have hhandle : e₂.handle = e.handle := congrArg Prod.fst hcore₂
    obtain ⟨e₁, he₁, hcore₁⟩ := h.entries e₂ he₂ (hhandle ▸ hold)
    exact ⟨e₁, he₁, hcore₁.trans hcore₂⟩
  next := h.next.trans h'.next

theorem create {r : Region} {res : Except ℕ+ ℕ} (h : dom.Creates d r res)
    (hnext : dom.nextHandle ≤ d.nextHandle) : dom.Recalls d where
  entries e he hold := by
    cases res with
    | error err => exact ⟨e, h ▸ he, rfl⟩
    | ok x =>
      obtain ⟨new, hhandle, -, -, hentries, -⟩ := h
      rw [hentries, List.mem_append, List.mem_singleton] at he
      obtain he | rfl := he
      · exact ⟨e, he, rfl⟩
      · exact absurd hold (hhandle ▸ lt_irrefl _)
  next := hnext

end Domain.Recalls

theorem Domain.Creates.numbered {dom d : Domain} {r : Region} {res : Except ℕ+ ℕ}
    (h : dom.Creates d r res) (hnext : dom.nextHandle ≤ d.nextHandle) (hnum : dom.Numbered) :
    d.Numbered := by
  intro e he
  cases res with
  | error err => exact (hnum e (h ▸ he)).trans_le hnext
  | ok x =>
    obtain ⟨new, hhandle, -, -, hentries, hsucc⟩ := h
    rw [hentries, List.mem_append, List.mem_singleton] at he
    rw [hsucc]
    obtain he | rfl := he
    · exact (hnum e he).trans (Nat.lt_succ_self _)
    · exact hhandle ▸ Nat.lt_succ_self _

/-! ## Searching -/

namespace Domain.Shrinks

theorem prune (dom : Domain) : dom.Shrinks (cachePrune dom) := by
  have htick := of_tick dom (dom.tick + 1)
  unfold cachePrune
  dsimp only
  split
  · exact htick.trans (flush _ _)
  · exact htick

theorem take (dom : Domain) (e : CacheEntry) : dom.Shrinks (cacheTake dom e) := by
  unfold cacheTake
  dsimp only
  refine (modify dom e.handle (fun e => { e with useCnt := e.useCnt + 1 }) (fun _ => rfl)
    (fun _ h => h)).trans (of_entries_eq _ ?_)
  split <;> rfl

theorem purge (dom : Domain) (r : Region) : dom.Shrinks (cachePurge dom r) :=
  foldl_uncache _ dom

end Domain.Shrinks

/-- No node of the tree can serve a region. -/
def Domain.Misses (dom : Domain) (r : Region) : Prop := dom.cache.candidates r = []

theorem Domain.Misses.of_tree {dom dom' : Domain} {r : Region} (h : dom.Misses r)
    (htree : ∀ e ∈ dom'.cache.tree, ∃ e₀ ∈ dom.cache.tree, e₀.core = e.core) :
    dom'.Misses r := by
  refine List.filter_eq_nil_iff.mpr (fun e he hsame => ?_)
  obtain ⟨e₀, he₀, hcore⟩ := htree e he
  have hiov : e₀.iov = e.iov := congrArg (fun k => k.2.1) hcore
  refine List.filter_eq_nil_iff.mp h e₀ he₀ ?_
  unfold MrCache.same at hsame ⊢
  rw [hiov]
  exact hsame

/-- A region nothing can serve is not hit. -/
theorem Domain.Misses.cacheHit_eq_none {env : Env} {dom : Domain} {r : Region}
    (h : dom.Misses r) : cacheHit env dom r = none := by
  unfold cacheHit ofiMrRbtFind
  rw [h]
  rfl

/-- Uncaching takes an entry out of the tree and puts none in. -/
theorem MrCache.mem_tree_uncache {c : MrCache} {x e : CacheEntry}
    (h : e ∈ (c.uncache x).tree) : e ∈ c.tree ∧ e.handle ≠ x.handle := by
  have hmem : e ∈ (c.uncacheStorage x.handle).entries ∧ e.inTree = true := by
    unfold MrCache.uncache at h
    split at h <;> exact List.mem_filter.mp h
  obtain ⟨hentry, hin⟩ := hmem
  obtain ⟨y, hy, rfl⟩ := List.mem_map.mp hentry
  dsimp only at hin ⊢
  split at hin
  · cases hin
  · rename_i hne
    rw [if_neg hne]
    exact ⟨List.mem_filter.mpr ⟨hy, hin⟩, hne⟩

theorem MrCache.mem_tree_foldl_uncache (l : List CacheEntry) (c : MrCache) {e : CacheEntry}
    (h : e ∈ (l.foldl MrCache.uncache c).tree) :
    e ∈ c.tree ∧ ∀ x ∈ l, e.handle ≠ x.handle := by
  induction l generalizing c with
  | nil => exact ⟨h, by simp⟩
  | cons x l ih =>
    obtain ⟨htree, hl⟩ := ih (c.uncache x) h
    obtain ⟨hc, hx⟩ := MrCache.mem_tree_uncache htree
    exact ⟨hc, List.forall_mem_cons.mpr ⟨hx, hl⟩⟩

/-- **A purge leaves nothing that could be hit.** -/
theorem cachePurge_misses (dom : Domain) (r : Region) : (cachePurge dom r).Misses r := by
  refine List.filter_eq_nil_iff.mpr (fun e he hsame => ?_)
  obtain ⟨htree, hne⟩ := MrCache.mem_tree_foldl_uncache _ _ he
  exact hne e (List.mem_filter.mpr ⟨htree, hsame⟩) rfl

/-- The entry a lookup hits, if it hits one. -/
def lookupHit (env : Env) (dom : Domain) (r : Region) : Option CacheEntry :=
  cacheHit env (cachePrune dom) r

/-- The region whose cookie a lookup returns: that of the entry it hits, or the
one it asked for. -/
def servedRegion (env : Env) (dom : Domain) (r : Region) : Region :=
  match lookupHit env dom r with
  | some e => e.iov
  | none => r

theorem servedRegion_of_misses {env : Env} {dom : Domain} {r : Region} (h : dom.Misses r) :
    servedRegion env dom r = r := by
  unfold servedRegion lookupHit
  rw [(h.of_tree (Domain.Shrinks.prune dom).tree).cacheHit_eq_none]

theorem mem_entries_of_cacheHit {env : Env} {dom : Domain} {r : Region} {e : CacheEntry}
    (h : cacheHit env dom r = some e) : e ∈ dom.cache.entries := by
  unfold cacheHit at h
  obtain ⟨hfind, -⟩ := Option.filter_eq_some_iff.mp h
  have hcand : e ∈ dom.cache.candidates r := List.mem_of_getElem? hfind
  exact (List.mem_filter.mp (List.mem_filter.mp hcand).1).1

theorem exists_mem_cacheTake {dom : Domain} {e : CacheEntry} (he : e ∈ dom.cache.entries) :
    ∃ e' ∈ (cacheTake dom e).cache.entries, e'.core = e.core := by
  refine ⟨{ e with useCnt := e.useCnt + 1 }, ?_, rfl⟩
  have hmem : { e with useCnt := e.useCnt + 1 }
      ∈ (dom.cache.modify e.handle (fun e => { e with useCnt := e.useCnt + 1 })).entries :=
    List.mem_map.mpr ⟨e, he, if_pos rfl⟩
  unfold cacheTake
  dsimp only
  split
  · exact hmem
  · exact hmem

/-- **A search returns an entry for the region the lookup is served from**, however many
rounds it takes: a failed round leaves nothing behind that could be hit. -/
theorem ofiMrCacheSearchLoop_spec (env : Env) (fuel : ℕ) {dom dom' : Domain}
    (hnum : dom.Numbered) {r : Region} {res : Except ℕ+ ℕ}
    (heq : ofiMrCacheSearchLoop env fuel dom r = (dom', res)) :
    dom.Recalls dom' ∧ ∀ h, res = .ok h →
      ∃ e ∈ dom'.cache.entries, e.handle = h ∧ e.iov = servedRegion env dom r := by
  induction fuel generalizing dom with
  | zero =>
    cases heq
    exact ⟨.of_shrinks (.refl _), fun h hok => by cases hok⟩
  | succ fuel ih =>
    have hprune := Domain.Shrinks.prune dom
    rw [ofiMrCacheSearchLoop] at heq
    cases hhit : cacheHit env (cachePrune dom) r with
    | some e =>
      rw [hhit] at heq
      cases heq
      obtain ⟨e', he', hcore⟩ := exists_mem_cacheTake (mem_entries_of_cacheHit hhit)
      refine ⟨.of_shrinks (hprune.trans (.take _ e)), fun h hok => ⟨e', he', ?_, ?_⟩⟩
      · cases hok
        exact congrArg Prod.fst hcore
      · unfold servedRegion lookupHit
        rw [hhit]
        exact congrArg (fun k => k.2.1) hcore
    | none =>
      have hserved : servedRegion env dom r = r := by
        unfold servedRegion lookupHit
        rw [hhit]
      have hpurge := hprune.trans (.purge (cachePrune dom) r)
      have hmiss := cachePurge_misses (cachePrune dom) r
      rw [hhit] at heq
      dsimp only at heq
      cases hres : utilMrCacheCreate env (cachePurge (cachePrune dom) r) r with
      | mk d res' =>
        obtain ⟨hcreates, hnext⟩ :=
          utilMrCacheCreate_entries env (hpurge.numbered hnum) r hres
        have hrecalls := (Domain.Recalls.of_shrinks hpurge).trans (.create hcreates hnext)
        have hnum' := hcreates.numbered hnext (hpurge.numbered hnum)
        rw [hres] at heq
        cases res' with
        | ok x =>
          cases heq
          obtain ⟨e, hhandle, hx, hiov, hentries, -⟩ := hcreates
          refine ⟨hrecalls, fun h hok => ⟨e, ?_, ?_, hiov.trans hserved.symm⟩⟩
          · rw [hentries]
            exact List.mem_append_right _ (List.mem_singleton.mpr rfl)
          · cases hok
            exact hhandle.trans hx.symm
        | error err =>
          have hentries : d.cache.entries = (cachePurge (cachePrune dom) r).cache.entries :=
            hcreates
          have hmiss' : d.Misses r := by
            unfold Domain.Misses MrCache.candidates MrCache.tree
            rw [hentries]
            exact hmiss
          -- a later round is served like the first one that missed
          have hagain (d' : Domain) (hd' : d.Shrinks d')
              (hloop : ofiMrCacheSearchLoop env fuel d' r = (dom', res)) :
              dom.Recalls dom' ∧ ∀ h, res = .ok h →
                ∃ e ∈ dom'.cache.entries, e.handle = h ∧ e.iov = servedRegion env dom r := by
            obtain ⟨hround, hentry⟩ := ih (hd'.numbered hnum') hloop
            rw [servedRegion_of_misses (hmiss'.of_tree hd'.tree), ← hserved] at hentry
            exact ⟨(hrecalls.trans (.of_shrinks hd')).trans hround, hentry⟩
          dsimp only at heq
          split at heq
          · exact hagain d (.refl d) heq
          have hflush := Domain.Shrinks.flush d true
          split at heq
          · rename_i d' hflushed
            rw [hflushed] at hflush
            exact hagain d' hflush heq
          · rename_i d' hflushed
            rw [hflushed] at hflush
            cases heq
            exact ⟨hrecalls.trans (.of_shrinks hflush), fun h hok => by cases hok⟩

/-- **`rds_reg_cache_get` returns the cookie of an entry for the region it is served
from.** -/
theorem rdsRegCacheGet_spec (env : Env) {dom dom' : Domain} (hnum : dom.Numbered) {r : Region}
    {res : Except ℕ+ (UInt64 × ℕ)} (heq : rdsRegCacheGet env dom r = (dom', res)) :
    dom.Recalls dom' ∧ ∀ c h, res = .ok (c, h) →
      (dom'.cache.entries.map CacheEntry.handle).Nodup →
        ∃ e ∈ dom'.cache.entries, e.core = (h, servedRegion env dom r, c) := by
  unfold rdsRegCacheGet ofiMrCacheSearch at heq
  split at heq
  · cases heq
    exact ⟨.of_shrinks (.refl _), fun c h hok => by cases hok⟩
  cases hsearch : ofiMrCacheSearchLoop env env.searchRounds dom r with
  | mk d res' =>
    obtain ⟨hrecalls, hentry⟩ := ofiMrCacheSearchLoop_spec env _ hnum hsearch
    rw [hsearch] at heq
    cases res' with
    | error err =>
      cases heq
      exact ⟨hrecalls, fun c h hok => by cases hok⟩
    | ok x =>
      dsimp only at heq
      obtain ⟨e, he, hhandle, hiov⟩ := hentry x rfl
      split at heq
      · cases heq
        exact ⟨hrecalls, fun c h hok => by cases hok⟩
      · rename_i e' hfind
        cases heq
        refine ⟨hrecalls, fun c h hok hnodup => ⟨e, he, ?_⟩⟩
        cases hok
        have hsame : e' = e := List.inj_on_of_nodup_map hnodup (List.mem_of_find?_eq_some hfind)
          he ((by simpa using List.find?_some hfind : e'.handle = x).trans hhandle.symm)
        rw [CacheEntry.core, hhandle, hiov, hsame]
