import RdsProv.Socket
import RdsProv.Iov

/-!
# Memory registration

Rendezvous sources are registered chunk by chunk, either with one registration
per message (`rds_reg_internal`) or through the domain's registration cache
(`rds_reg_cache_get`). The cache is libfabric's `ofi_mr_cache`: a tree of
registered regions, the unused ones on an LRU list, with the provider's
`rds_cache_add_region` and `rds_cache_delete_region` as call-backs.

The cache is modelled as `util_mr_cache.c` has it, sequentially. Which of
several nodes the tree search meets first depends on the shape of the tree, so
it is a choice of the environment; so is whether the memory monitor still
vouches for a hit. Entries come from a pool and keep the bytes of their previous
use until `add_region` fills them. The destination that `rds_reg_cache_get`
stashes for `add_region` only travels on to the registration call and is left
out.
-/

/-! ## Kernel registration -/

/-- `struct rds_mr`: a registration with its reference count. -/
structure RdsMr where
  handle : ℕ
  sock : ℕ
  cookie : UInt64
  region : Region
  ref : ℕ
  deriving DecidableEq, Repr

/-- An entry of the registration cache. -/
structure CacheEntry where
  handle : ℕ
  iov : Region
  /-- `struct rds_cached_mr`, the provider's part of the entry. -/
  cookie : UInt64
  useCnt : ℕ
  /-- Whether the entry has a node in the tree. -/
  inTree : Bool
  deriving DecidableEq, Repr

/-- `struct ofi_mr_cache`. The lists hold handles; `pool` holds what returned
entries still contain. -/
structure MrCache where
  entries : List CacheEntry
  lru : List ℕ
  dead : List ℕ
  maxCnt : ℕ
  maxSize : ℕ
  pool : List UInt64

/-- `struct rds_domain`, with the registration calls made on it so far. -/
structure Domain where
  /-- The socket of `reg_ep`. -/
  regEp : Option ℕ
  cacheEnabled : Bool
  cache : MrCache
  mrs : List RdsMr
  nextHandle : ℕ
  kcalls : List KernelCall
  tick : ℕ

/-- A domain as it is opened. -/
def Domain.opened (cacheEnabled : Bool) (regEp : Option ℕ) (maxCnt maxSize : ℕ) : Domain where
  regEp := regEp
  cacheEnabled := cacheEnabled
  cache := ⟨[], [], [], maxCnt, maxSize, []⟩
  mrs := []
  nextHandle := 0
  kcalls := []
  tick := 0

/-- `rds_kernel_reg`. -/
def rdsKernelReg (env : Env) (dom : Domain) (sock : ℕ) (r : Region) :
    Domain × Except ℕ+ UInt64 :=
  if rdsKernelSegMax < r.len then (dom, .error fiEinval)
  else match env.getMr dom.kcalls r with
    | .error e => (dom, .error e)
    | .ok c => ({ dom with kcalls := dom.kcalls ++ [.getMr sock r c] }, .ok c)

/-- `rds_kernel_free`. -/
def rdsKernelFree (dom : Domain) (sock : ℕ) (cookie : UInt64) : Domain :=
  { dom with kcalls := dom.kcalls ++ [.freeMr sock cookie] }

/-- `rds_reg_internal`. -/
def rdsRegInternal (env : Env) (dom : Domain) (sock : ℕ) (r : Region) :
    Domain × Except ℕ+ RdsMr :=
  match rdsKernelReg env dom sock r with
  | (dom, .error e) => (dom, .error e)
  | (dom, .ok cookie) =>
    let ok := env.alloc dom.tick
    let dom := { dom with tick := dom.tick + 1 }
    if ok then
      let mr : RdsMr := ⟨dom.nextHandle, sock, cookie, r, 1⟩
      ({ dom with mrs := dom.mrs ++ [mr], nextHandle := dom.nextHandle + 1 }, .ok mr)
    else (rdsKernelFree dom sock cookie, .error fiEnomem)

/-- `rds_mr_put`. -/
def rdsMrPut (dom : Domain) (h : ℕ) : Domain :=
  match dom.mrs.find? (·.handle == h) with
  | none => dom
  | some mr =>
    if mr.ref - 1 ≠ 0 then
      { dom with mrs := dom.mrs.map (fun m =>
          if m.handle = h then { m with ref := m.ref - 1 } else m) }
    else rdsKernelFree { dom with mrs := dom.mrs.filter (·.handle != h) }
      mr.sock mr.cookie

/-! ## The cache -/

namespace Region

/-- `ofi_iov_end`: the last byte of a region. -/
def last (r : Region) : ℕ := r.base + r.len - 1

/-- `ofi_iov_within`. -/
def within (r s : Region) : Bool := s.base ≤ r.base && r.last ≤ s.last

/-- `ofi_iov_shifted_left`. -/
def shiftedLeft (r s : Region) : Bool := r.base < s.base && r.last < s.last

/-- `ofi_iov_shifted_right`. -/
def shiftedRight (r s : Region) : Bool := s.base < r.base && s.last < r.last

/-- Neither `ofi_iov_left` nor `ofi_iov_right`: the regions share a byte. -/
def overlaps (r s : Region) : Bool := !(r.last < s.base) && !(s.last < r.base)

end Region

namespace MrCache

/-- The entries with a node in the tree. -/
def tree (c : MrCache) : List CacheEntry := c.entries.filter (·.inTree)

/-- `ofi_mr_cache_full`. -/
def full (c : MrCache) : Bool :=
  c.maxCnt ≤ c.tree.length || c.maxSize ≤ (c.tree.map (·.iov.len)).sum

/-- Change one entry. -/
def modify (c : MrCache) (h : ℕ) (f : CacheEntry → CacheEntry) : MrCache :=
  { c with entries := c.entries.map (fun e => if e.handle = h then f e else e) }

/-- `util_mr_find_within` finds the key and the node equal: neither is shifted
past the other. -/
def same (r : Region) (e : CacheEntry) : Bool :=
  !(r.shiftedLeft e.iov) && !(r.shiftedRight e.iov)

/-- The nodes a search for a region can meet. -/
def candidates (c : MrCache) (r : Region) : List CacheEntry := c.tree.filter (same r)

/-- `util_mr_uncache_entry_storage`: take the entry out of the tree. -/
def uncacheStorage (c : MrCache) (h : ℕ) : MrCache :=
  c.modify h (fun e => { e with inTree := false })

/-- `util_mr_uncache_entry`: an unused entry goes to the dead list, a used one
waits for its last user. -/
def uncache (c : MrCache) (e : CacheEntry) : MrCache :=
  let c := c.uncacheStorage e.handle
  if e.useCnt = 0 then
    { c with lru := c.lru.erase e.handle, dead := c.dead ++ [e.handle] }
  else c

end MrCache

/-- `ofi_mr_rbt_find`. -/
def ofiMrRbtFind (env : Env) (dom : Domain) (r : Region) : Option CacheEntry :=
  let cands := dom.cache.candidates r
  cands[env.pick dom.tick % cands.length]?

/-- `rds_cache_delete_region`. -/
def rdsCacheDeleteRegion (dom : Domain) (cookie : UInt64) : Domain :=
  match dom.regEp with
  | none => dom
  | some sock => rdsKernelFree dom sock cookie

/-- `util_mr_free_entry`: the provider's call-back, then back to the pool. -/
def utilMrFreeEntry (dom : Domain) (h : ℕ) : Domain :=
  match dom.cache.entries.find? (·.handle == h) with
  | none => dom
  | some e =>
    let dom := rdsCacheDeleteRegion dom e.cookie
    { dom with cache := { dom.cache with
        entries := dom.cache.entries.filter (·.handle != h)
        pool := e.cookie :: dom.cache.pool } }

/-- The LRU loop of `ofi_mr_cache_flush`: pop entries while the cache is
full. -/
def evictLru : List ℕ → MrCache → Bool → MrCache × List ℕ
  | [], c, _ => (c, [])
  | h :: lru, c, flushLru =>
    if flushLru then
      let c := { c.uncacheStorage h with lru := lru }
      let rest := evictLru lru c c.full
      (rest.1, h :: rest.2)
    else (c, [])

/-- `ofi_mr_cache_flush`: free the dead entries and, if asked, the least
recently used ones. -/
def ofiMrCacheFlush (dom : Domain) (flushLru : Bool) : Domain × Bool :=
  let dead := dom.cache.dead
  let (c, evicted) := evictLru dom.cache.lru { dom.cache with dead := [] } flushLru
  let freeList := dead ++ evicted
  (freeList.foldl utilMrFreeEntry { dom with cache := c }, freeList != [])

/-- `ofi_mr_cache_notify`: the monitor reports that a range was unmapped. -/
def ofiMrCacheNotify (dom : Domain) (r : Region) : Domain :=
  { dom with
    cache :=
      (dom.cache.tree.filter (fun e => r.overlaps e.iov)).foldl MrCache.uncache dom.cache }

/-- `ofi_mr_cache_delete`: drop a use of an entry. -/
def ofiMrCacheDelete (dom : Domain) (h : ℕ) : Domain :=
  match dom.cache.entries.find? (·.handle == h) with
  | none => dom
  | some e =>
    let dom := { dom with
      cache := dom.cache.modify h (fun e => { e with useCnt := e.useCnt - 1 }) }
    if e.useCnt - 1 ≠ 0 then dom
    else if e.inTree then
      { dom with cache := { dom.cache with lru := dom.cache.lru ++ [h] } }
    else utilMrFreeEntry dom h

/-- `util_mr_entry_alloc`: an entry from the pool, with its first user. It
carries what its previous use left until `add_region` succeeds. -/
def utilMrEntryAlloc (dom : Domain) (r : Region) : Domain :=
  { dom with
    nextHandle := dom.nextHandle + 1
    cache := { dom.cache with
      entries := dom.cache.entries ++ [⟨dom.nextHandle, r, dom.cache.pool.headD 0, 1, false⟩]
      pool := dom.cache.pool.tail } }

/-- `rds_cache_add_region`: register the region of an entry. -/
def rdsCacheAddRegion (env : Env) (dom : Domain) (h : ℕ) (r : Region) :
    Domain × Option ℕ+ :=
  match dom.regEp with
  | none => (dom, some fiEopbadstate)
  | some sock =>
    match rdsKernelReg env dom sock r with
    | (dom, .error err) => (dom, some err)
    | (dom, .ok cookie) =>
      ({ dom with cache := dom.cache.modify h (fun e => { e with cookie := cookie }) }, none)

/-- `util_mr_cache_create`: register a region and enter it in the cache. A
failure hands the entry to `delete_region` as it is. -/
def utilMrCacheCreate (env : Env) (dom : Domain) (r : Region) : Domain × Except ℕ+ ℕ :=
  let ok := env.alloc dom.tick
  let h := dom.nextHandle
  let dom := { dom with tick := dom.tick + 1 }
  if !ok then (dom, .error fiEnomem)
  else match rdsCacheAddRegion env (utilMrEntryAlloc dom r) h r with
    | (dom, some err) => (utilMrFreeEntry dom h, .error err)
    | (dom, none) =>
      -- the tree node is allocated next
      let ok := env.alloc dom.tick
      let dom := { dom with tick := dom.tick + 1 }
      if !ok then (utilMrFreeEntry dom h, .error fiEnomem)
      else if (ofiMrRbtFind env dom r).isSome then
        (utilMrFreeEntry dom h, .error fiEagain)
      else if dom.cache.full || !(env.subscribe dom.tick) then (dom, .ok h)
      else
        ({ dom with cache := dom.cache.modify h (fun e => { e with inTree := true }) }, .ok h)

/-- The entry a search hits: one the tree search meets, that contains the
region and that the monitor vouches for. -/
def cacheHit (env : Env) (dom : Domain) (r : Region) : Option CacheEntry :=
  (ofiMrRbtFind env dom r).filter (fun e => r.within e.iov && env.valid dom.tick)

/-- The start of a round of `ofi_mr_cache_search`: make room and bury the
dead. -/
def cachePrune (dom : Domain) : Domain :=
  let flushLru := dom.cache.full
  let dom := { dom with tick := dom.tick + 1 }
  if flushLru || dom.cache.dead != [] then (ofiMrCacheFlush dom flushLru).1 else dom

/-- A hit: one more user of the entry. -/
def cacheTake (dom : Domain) (e : CacheEntry) : Domain :=
  let cache := dom.cache.modify e.handle (fun e => { e with useCnt := e.useCnt + 1 })
  { dom with
    cache := if e.useCnt = 0 then { cache with lru := cache.lru.erase e.handle } else cache }

/-- A miss: take whatever the search meets out of the tree. -/
def cachePurge (dom : Domain) (r : Region) : Domain :=
  { dom with cache := (dom.cache.candidates r).foldl MrCache.uncache dom.cache }

/-- The loop of `ofi_mr_cache_search`. The source bounds it by nothing; here it
runs for as many rounds as it is given, so that every search that returns is the
search with enough of them. -/
def ofiMrCacheSearchLoop (env : Env) : ℕ → Domain → Region → Domain × Except ℕ+ ℕ
  | 0, dom, _ => (dom, .error fiEagain)
  | fuel + 1, dom, r =>
    let dom := cachePrune dom
    match cacheHit env dom r with
    | some e => (cacheTake dom e, .ok e.handle)
    | none =>
      match utilMrCacheCreate env (cachePurge dom r) r with
      | (dom, .ok h) => (dom, .ok h)
      | (dom, .error err) =>
        if err = fiEagain then ofiMrCacheSearchLoop env fuel dom r
        else match ofiMrCacheFlush dom true with
          | (dom, true) => ofiMrCacheSearchLoop env fuel dom r
          | (dom, false) => (dom, .error err)

/-- `ofi_mr_cache_search`. -/
def ofiMrCacheSearch (env : Env) (dom : Domain) (r : Region) : Domain × Except ℕ+ ℕ :=
  ofiMrCacheSearchLoop env env.searchRounds dom r

/-- `rds_reg_cache_get`: the cookie of the entry a search returns, and the
entry. -/
def rdsRegCacheGet (env : Env) (dom : Domain) (r : Region) :
    Domain × Except ℕ+ (UInt64 × ℕ) :=
  if !dom.cacheEnabled then (dom, .error fiEnosys)
  else match ofiMrCacheSearch env dom r with
    | (dom, .error e) => (dom, .error e)
    | (dom, .ok h) =>
      match dom.cache.entries.find? (·.handle == h) with
      | none => (dom, .error fiEinval)
      | some e => (dom, .ok (e.cookie, h))

/-- `rds_reg_cache_put`. -/
def rdsRegCachePut (dom : Domain) (h : ℕ) : Domain := ofiMrCacheDelete dom h

/-! ## Registering a message -/

/-- The chunks one entry of a source list is registered in, each at most
`RDS_KERNEL_SEG_MAX` bytes. -/
def chunksFrom (base left : ℕ) : List Region :=
  if left = 0 then []
  else
    let clen := min left rdsKernelSegMax
    ⟨base, clen⟩ :: chunksFrom (base + clen) (left - clen)
termination_by left
decreasing_by
  have : 0 < rdsKernelSegMax := by decide
  omega

/-- The chunks of a source list, in the order they are registered. -/
def chunksOf (iov : List Iovec) : List Region :=
  iov.flatMap (fun v => chunksFrom v.base v.len)

theorem chunksFrom_zero (base : ℕ) : chunksFrom base 0 = [] := by
  rw [chunksFrom, if_pos rfl]

theorem chunksFrom_of_pos (base : ℕ) {left : ℕ} (h : 0 < left) :
    chunksFrom base left = ⟨base, min left rdsKernelSegMax⟩
      :: chunksFrom (base + min left rdsKernelSegMax) (left - min left rdsKernelSegMax) := by
  rw [chunksFrom, if_neg h.ne']

/-- A piece that one registration covers is one chunk. -/
theorem chunksFrom_of_le (base : ℕ) {left : ℕ} (h : 0 < left) (hle : left ≤ rdsKernelSegMax) :
    chunksFrom base left = [⟨base, left⟩] := by
  rw [chunksFrom_of_pos base h, Nat.min_eq_left hle, Nat.sub_self, chunksFrom_zero]

/-- No chunk exceeds what one registration covers. -/
theorem len_le_of_mem_chunksFrom {base left : ℕ} {r : Region} (h : r ∈ chunksFrom base left) :
    r.len ≤ rdsKernelSegMax := by
  induction left using Nat.strong_induction_on generalizing base with
  | _ left ih =>
    rcases Nat.eq_zero_or_pos left with rfl | hpos
    · rw [chunksFrom_zero] at h
      cases h
    · rw [chunksFrom_of_pos base hpos] at h
      rcases List.mem_cons.mp h with rfl | h
      · exact Nat.min_le_right _ _
      · have hmax : 0 < rdsKernelSegMax := by decide
        exact ih _ (by omega) h

theorem len_le_of_mem_chunksOf {iov : List Iovec} {r : Region} (h : r ∈ chunksOf iov) :
    r.len ≤ rdsKernelSegMax := by
  obtain ⟨v, -, hr⟩ := List.mem_flatMap.mp h
  exact len_le_of_mem_chunksFrom hr

/-- A chunk's length is carried exactly by its segment. -/
theorem toNat_ofNat_len {r : Region} (h : r.len ≤ rdsKernelSegMax) :
    (UInt64.ofNat r.len).toNat = r.len := by
  rw [UInt64.toNat_ofNat']
  exact Nat.mod_eq_of_lt (Nat.lt_of_le_of_lt h (by decide))

/-- The number of chunks of one entry. -/
theorem length_chunksFrom (base left : ℕ) :
    (chunksFrom base left).length = (left + rdsKernelSegMax - 1) / rdsKernelSegMax := by
  induction left using Nat.strong_induction_on generalizing base with
  | _ left ih =>
    rcases Nat.eq_zero_or_pos left with rfl | hpos
    · rw [chunksFrom_zero]
      rfl
    · have hmax : 0 < rdsKernelSegMax := by decide
      rw [chunksFrom_of_pos base hpos, List.length_cons, ih _ (by omega)]
      unfold rdsKernelSegMax
      omega

theorem chunksOf_single (base : ℕ) {len : ℕ} (h : 0 < len) (hle : len ≤ rdsKernelSegMax) :
    chunksOf [⟨base, len⟩] = [⟨base, len⟩] := by
  rw [chunksOf, List.flatMap_singleton, chunksFrom_of_le base h hle]

/-- The number of segments of a source list. -/
def rdsNseg (iov : List Iovec) : ℕ :=
  (iov.map (fun v => (v.len + rdsKernelSegMax - 1) / rdsKernelSegMax)).sum

/-- The segments are counted right: there is one per chunk. -/
theorem length_chunksOf (iov : List Iovec) : (chunksOf iov).length = rdsNseg iov := by
  unfold chunksOf rdsNseg
  rw [List.length_flatMap]
  simp only [length_chunksFrom]

/-- Pieces that one registration covers are one segment at most. -/
theorem rdsNseg_le_length {iov : List Iovec} (h : ∀ v ∈ iov, v.len ≤ rdsKernelSegMax) :
    rdsNseg iov ≤ iov.length := by
  induction iov with
  | nil => exact le_rfl
  | cons v iov ih =>
    have hv : (v.len + rdsKernelSegMax - 1) / rdsKernelSegMax ≤ 1 := by
      have hle := h v List.mem_cons_self
      rw [Nat.div_le_iff_le_mul (by decide)]
      omega
    have htail := ih (fun w hw => h w (List.mem_cons_of_mem _ hw))
    unfold rdsNseg at htail ⊢
    rw [List.map_cons, List.sum_cons, List.length_cons, Nat.add_comm]
    exact Nat.add_le_add htail hv

/-- Register one chunk, through the cache or not. -/
def rdsRegChunk (env : Env) (dom : Domain) (sock : ℕ) (cached : Bool) (r : Region) :
    Domain × Except ℕ+ (UInt64 × ℕ) :=
  if cached then rdsRegCacheGet env dom r
  else match rdsRegInternal env dom sock r with
    | (dom, .error e) => (dom, .error e)
    | (dom, .ok mr) => (dom, .ok (mr.cookie, mr.handle))

/-- The registration loop of `rds_send_rndzv`: the segments described so far,
the registrations they hold, and the error that stopped it. -/
def rdsRegChunks (env : Env) (sock : ℕ) (cached : Bool) :
    List Region → Domain → Domain × List Seg × List ℕ × Option ℕ+
  | [], dom => (dom, [], [], none)
  | r :: rs, dom =>
    match rdsRegChunk env dom sock cached r with
    | (dom, .error e) => (dom, [], [], some e)
    | (dom, .ok (cookie, h)) =>
      let (dom, segs, hs, err) := rdsRegChunks env sock cached rs dom
      (dom, ⟨cookie, 0, UInt64.ofNat r.len⟩ :: segs, h :: hs, err)

/-- A registration loop that was not stopped describes every chunk. -/
theorem length_rdsRegChunks (env : Env) (sock : ℕ) (cached : Bool) (rs : List Region)
    (dom : Domain) (h : (rdsRegChunks env sock cached rs dom).2.2.2 = none) :
    (rdsRegChunks env sock cached rs dom).2.1.length = rs.length := by
  induction rs generalizing dom with
  | nil => rfl
  | cons r rs ih =>
    rw [rdsRegChunks] at h ⊢
    split at h
    · cases h
    · exact congrArg (· + 1) (ih _ h)

/-- Release registrations, cached or not. -/
def rdsUnregChunks (cached : Bool) (dom : Domain) (hs : List ℕ) : Domain :=
  hs.foldl (if cached then rdsRegCachePut else rdsMrPut) dom
