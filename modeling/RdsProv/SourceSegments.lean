import RdsProv.FreedCookies

/-!
# The segments of a request

`rds_send_rndzv` cuts its source into chunks, registers each and describes it by
a segment. Without the cache the segments denote the chunks, whatever happened on the
domain before (`rdsRegChunks_uncached`). With the cache a chunk may be served by an
entry whose region merely contains it, and the offset of every segment is `0` all the
same; so the segments denote the chunks exactly when each lookup that hits an entry
hits one that starts where the chunk starts (`rdsRegChunks_cached_iff`).

A message sent from the interior of a buffer that was sent before breaks the
condition: the receiver is told to read from the start of the old buffer
(`interior_send_denotes_wrong_bytes`).

That an entry's cookie stands for the entry's region takes an assumption. Of the kernel
nothing is asked but that it hands out no cookie that is live. The provider itself frees a
cookie that is not its own when a registration made for the cache is refused, and the
kernel may then return that cookie for another buffer
(`refused_registration_redirects_hit`).
-/

/-! ## Without the cache -/

/-- Registering a chunk without the cache adds its registration to the log. -/
theorem rdsRegChunk_uncached {env : Env} {dom dom' : Domain} {sock : ℕ} {r : Region}
    {c : UInt64} {h : ℕ} (heq : rdsRegChunk env dom sock false r = (dom', .ok (c, h))) :
    env.getMr dom.kcalls r = .ok c ∧ dom'.kcalls = dom.kcalls ++ [.getMr sock r c] := by
  unfold rdsRegChunk rdsRegInternal rdsKernelReg at heq
  rw [if_neg Bool.false_ne_true] at heq
  by_cases hlen : rdsKernelSegMax < r.len
  · rw [if_pos hlen] at heq
    cases heq
  rw [if_neg hlen] at heq
  cases hget : env.getMr dom.kcalls r with
  | error e =>
    rw [hget] at heq
    cases heq
  | ok c' =>
    rw [hget] at heq
    dsimp only at heq
    cases halloc : env.alloc dom.tick with
    | false =>
      rw [halloc] at heq
      cases heq
    | true =>
      rw [halloc] at heq
      cases heq
      exact ⟨rfl, rfl⟩

/-- The segment of a chunk denotes as many bytes as the chunk has, from the start
of the region its cookie stands for. -/
theorem denotes_chunk {calls : List KernelCall} {region r : Region} {c : UInt64}
    (h : regionOf calls c = some region) (hlen : r.len ≤ rdsKernelSegMax) :
    Seg.denotes calls ⟨c, 0, UInt64.ofNat r.len⟩ = some ⟨region.base, r.len⟩ := by
  unfold Seg.denotes
  rw [h, Option.map_some, toNat_ofNat_len hlen]
  rfl

/-- What a registration loop that was not stopped did to its first chunk. -/
theorem rdsRegChunks_cons {env : Env} {sock : ℕ} {cached : Bool} {r : Region} {rs : List Region}
    {dom dom' : Domain} {segs : List Seg} {hs : List ℕ}
    (heq : rdsRegChunks env sock cached (r :: rs) dom = (dom', segs, hs, none)) :
    ∃ d c h segs' hs', rdsRegChunk env dom sock cached r = (d, .ok (c, h))
      ∧ rdsRegChunks env sock cached rs d = (dom', segs', hs', none)
      ∧ segs = ⟨c, 0, UInt64.ofNat r.len⟩ :: segs' ∧ hs = h :: hs' := by
  rw [rdsRegChunks] at heq
  split at heq
  · cases heq
  · rename_i d c h hchunk
    cases hrs : rdsRegChunks env sock cached rs d with
    | mk d' rest =>
      obtain ⟨segs', hs', err⟩ := rest
      rw [hrs] at heq
      cases heq
      exact ⟨d, c, h, segs', hs', hchunk, hrs, rfl, rfl⟩

/-- **Without the cache the segments denote the chunks**, and what was registered before
stays so. -/
theorem rdsRegChunks_uncached {env : Env} (henv : env.FreshLive) {sock : ℕ}
    (rs : List Region) (hrs : ∀ r ∈ rs, r.len ≤ rdsKernelSegMax) {dom dom' : Domain}
    {segs : List Seg} {hs : List ℕ}
    (heq : rdsRegChunks env sock false rs dom = (dom', segs, hs, none)) :
    segs.map (Seg.denotes dom'.kcalls) = rs.map some
      ∧ ∀ c r, regionOf dom.kcalls c = some r → regionOf dom'.kcalls c = some r := by
  induction rs generalizing dom segs hs with
  | nil =>
    cases heq
    exact ⟨rfl, fun _ _ h => h⟩
  | cons r rs ih =>
    obtain ⟨hr, hrs⟩ := List.forall_mem_cons.mp hrs
    obtain ⟨d, c, h, segs', hs', hchunk, hrest, rfl, rfl⟩ := rdsRegChunks_cons heq
    obtain ⟨hget, hcalls⟩ := rdsRegChunk_uncached hchunk
    obtain ⟨hsegs, hkept⟩ := ih hrs hrest
    rw [hcalls] at hkept
    have hown := hkept c r (by rw [regionOf_append_getMr, if_pos rfl])
    refine ⟨?_, fun c' r' hlive => hkept c' r' ?_⟩
    · rw [List.map_cons, List.map_cons, hsegs, denotes_chunk hown hr]
    · -- the cookie that is returned is not one that stands for a region
      have hne : c ≠ c' := by
        rintro rfl
        have hdead := henv _ _ _ hget
        rw [isLive_eq_isSome, hlive] at hdead
        cases hdead
      rw [regionOf_append_getMr, if_neg hne]
      exact hlive

/-! ## With the cache -/

/-- Every entry a lookup hits starts where the chunk it was looked up for
starts. -/
def AlignedHits (env : Env) : List Region → Domain → Prop
  | [], _ => True
  | r :: rs, dom =>
    (∀ e, lookupHit env dom r = some e → e.iov.base = r.base)
      ∧ AlignedHits env rs (rdsRegCacheGet env dom r).1

theorem servedRegion_base_iff {env : Env} {dom : Domain} {r : Region} :
    (servedRegion env dom r).base = r.base
      ↔ ∀ e, lookupHit env dom r = some e → e.iov.base = r.base := by
  unfold servedRegion
  cases lookupHit env dom r with
  | none => simp
  | some e => simp

/-- **An entry that is held stays what it is**, and its cookie stands for its region. -/
theorem Domain.Custody.held_own {dom d : Domain} {strict : Prop} {cached plain cached' plain' :
    Multiset ℕ} (h : dom.Custody strict cached plain) (hd : d.Custody True cached' plain')
    (hrecalls : dom.Recalls d) {e : CacheEntry} (he : e ∈ dom.cache.entries)
    (hheld : e.handle ∈ cached') : regionOf d.kcalls e.cookie = some e.iov := by
  obtain ⟨e', he', hcore⟩ := h.held_survives hd hrecalls he hheld
  have hown := (hd.owned trivial).own e'.held (List.mem_append_left _ (List.mem_map_of_mem he'))
  have hheld : e'.held = e.held := congrArg (fun k => (k.2.2, k.2.1)) hcore
  rwa [hheld] at hown

theorem recalls_rdsRegChunks {env : Env} (henv : env.FreshLive) (sock : ℕ) (rs : List Region)
    (hrs : ∀ r ∈ rs, r.len ≤ rdsKernelSegMax) {dom : Domain} {cached plain : Multiset ℕ}
    (h : dom.Custody True cached plain) (hgrant : ChunksGranted env rs dom) :
    dom.Recalls (rdsRegChunks env sock true rs dom).1 := by
  induction rs generalizing dom cached with
  | nil => exact .of_shrinks (.refl dom)
  | cons r rs ih =>
    obtain ⟨hr, hrs⟩ := List.forall_mem_cons.mp hrs
    rw [rdsRegChunks]
    cases hreg : rdsRegChunk env dom sock true r with
    | mk d res =>
      have hchunk : rdsRegCacheGet env dom r = (d, res) := hreg
      have hrecalls := (rdsRegCacheGet_spec env h.numbered hchunk).1
      have hd := Domain.Custody.regCacheGet (fun _ => henv) (fun _ => hr) h
        (fun _ => hgrant.1) hchunk
      have hgrants := hgrant.2
      rw [hchunk] at hgrants
      cases res with
      | error e => exact hrecalls
      | ok x => exact hrecalls.trans (ih hrs hd hgrants)

/-- **With the cache the segments denote the chunks exactly when every hit is
aligned.** -/
theorem rdsRegChunks_cached_iff {env : Env} (henv : env.FreshLive) {sock : ℕ}
    (rs : List Region) (hrs : ∀ r ∈ rs, r.len ≤ rdsKernelSegMax) {dom dom' : Domain}
    {cached plain : Multiset ℕ} (h : dom.Custody True cached plain)
    (hgrant : ChunksGranted env rs dom) {segs : List Seg} {hs : List ℕ}
    (heq : rdsRegChunks env sock true rs dom = (dom', segs, hs, none)) :
    segs.map (Seg.denotes dom'.kcalls) = rs.map some ↔ AlignedHits env rs dom := by
  induction rs generalizing dom cached segs hs with
  | nil =>
    cases heq
    exact iff_of_true rfl trivial
  | cons r rs ih =>
    obtain ⟨hr, hrs⟩ := List.forall_mem_cons.mp hrs
    obtain ⟨d, c, x, segs', hs', hchunk, hrest, rfl, rfl⟩ := rdsRegChunks_cons heq
    have hchunk : rdsRegCacheGet env dom r = (d, .ok (c, x)) := hchunk
    have hgrants := hgrant.2
    rw [hchunk] at hgrants
    have hd := Domain.Custody.regCacheGet (fun _ => henv) (fun _ => hr) h (fun _ => hgrant.1)
      hchunk
    -- the entry that serves the chunk is held until the request is built
    obtain ⟨e, he, hcore⟩ := (rdsRegCacheGet_spec env h.numbered hchunk).2 c x rfl hd.cache.nodup
    obtain ⟨rfl, hiov, rfl⟩ : e.handle = x ∧ e.iov = servedRegion env dom r ∧ e.cookie = c := by
      simpa [CacheEntry.core] using hcore
    have hend := Domain.Custody.regChunks (fun _ => henv) sock true rs (fun _ => hrs) hd
      (fun _ _ => hgrants)
    have hrecalls := recalls_rdsRegChunks henv sock rs hrs hd hgrants
    rw [hrest] at hend hrecalls
    have hown := hd.held_own hend hrecalls he
      (Multiset.mem_add.mpr (.inr (Multiset.mem_cons_self _ _)))
    have hhead : some (⟨(servedRegion env dom r).base, r.len⟩ : Region) = some r
        ↔ ∀ e, lookupHit env dom r = some e → e.iov.base = r.base := by
      rw [← servedRegion_base_iff, Option.some_inj, Region.mk.injEq]
      exact and_iff_left rfl
    rw [List.map_cons, List.map_cons, denotes_chunk hown hr, hiov, List.cons.injEq, AlignedHits,
      hchunk]
    exact and_congr hhead (ih hrs hd hgrants hrest)

/-! ## Cached against uncached -/

/-- The byte ranges the segments of a request denote, if the source could be
registered. -/
def sourceRanges (env : Env) (sock : ℕ) (cached : Bool) (iov : List Iovec) (dom : Domain) :
    Option (List (Option Region)) :=
  match rdsRegChunks env sock cached (chunksOf iov) dom with
  | (dom', segs, _, none) => some (segs.map (Seg.denotes dom'.kcalls))
  | (_, _, _, some _) => none

/-- **Cached and uncached segments denote the same bytes exactly when every hit is
aligned**, as long as no registration made for the cache is refused, before or for this
send. Of the kernel it is assumed that it returns no cookie that is live; the history of
the domain without the cache is arbitrary. -/
theorem cached_ranges_eq_uncached_iff {regEp regEp' : Option ℕ}
    {maxCnt maxSize maxCnt' maxSize' : ℕ} {acts acts' : List DomainAct}
    (hacts : Along Ward.act (fun w a => w.Admits a ∧ w.Granted a)
      (Ward.opened true regEp maxCnt maxSize) acts)
    {env env' : Env} (henv : env.FreshLive) (henv' : env'.FreshLive) {sock sock' : ℕ}
    {iov : List Iovec}
    (hgrant : ChunksGranted env (chunksOf iov)
      ((Domain.opened true regEp maxCnt maxSize).history acts))
    {ranges ranges' : List (Option Region)}
    (h : sourceRanges env sock true iov
      ((Domain.opened true regEp maxCnt maxSize).history acts) = some ranges)
    (h' : sourceRanges env' sock' false iov
      ((Domain.opened false regEp' maxCnt' maxSize').history acts') = some ranges') :
    ranges = ranges' ↔
      AlignedHits env (chunksOf iov) ((Domain.opened true regEp maxCnt maxSize).history acts) := by
  have hinv := Ward.inCustody true regEp maxCnt maxSize hacts
  unfold Ward.InCustody at hinv
  rw [Ward.foldl_dom] at hinv
  have hlen : ∀ r ∈ chunksOf iov, r.len ≤ rdsKernelSegMax := fun r => len_le_of_mem_chunksOf
  unfold sourceRanges at h h'
  split at h
  · rename_i d segs hs hreg
    split at h'
    · rename_i d' segs' hs' hreg'
      cases h
      cases h'
      rw [(rdsRegChunks_uncached henv' _ hlen hreg').1]
      exact rdsRegChunks_cached_iff henv _ hlen hinv hgrant hreg
    · cases h'
  · cases h

/-- A buffer of one mebibyte is sent once, and the send completes. -/
def oneSend (cacheEnabled : Bool) : List DomainAct :=
  [.send (Env.calm numberCookies) 3 [⟨1048576, 1048576⟩], .release cacheEnabled [0]]

/-- The domain it leaves. -/
def afterOneSend (cacheEnabled : Bool) : Domain :=
  (Domain.opened cacheEnabled (some 3) 1024 268435456).history (oneSend cacheEnabled)

/-- Nothing is refused, and only what is held is released. -/
theorem oneSend_along :
    Along Ward.act (fun w a => w.Admits a ∧ w.Granted a) cachedWard (oneSend true) := by
  have hheld : (cachedWard.act (.send (Env.calm numberCookies) 3 [⟨1048576, 1048576⟩])).cached
      = {0} := by
    unfold Ward.act
    dsimp only
    rw [chunksOf_single 1048576 (by decide) (by decide)]
    decide +kernel
  refine ⟨⟨numberCookies_freshLive, fun _ => ?_⟩, ⟨⟨?_, ?_⟩, trivial⟩, trivial⟩
  · rw [chunksOf_single 1048576 (by decide) (by decide)]
    exact ⟨fun _ => ⟨fun _ => .inr ⟨1, rfl⟩, trivial⟩, trivial⟩
  · rw [hheld]
    exact le_rfl
  · exact Multiset.zero_le _

theorem afterOneSend_eq (cacheEnabled : Bool) : afterOneSend cacheEnabled =
    rdsUnregChunks cacheEnabled (rdsRegChunks (Env.calm numberCookies) 3 cacheEnabled
      [⟨1048576, 1048576⟩] (Domain.opened cacheEnabled (some 3) 1024 268435456)).1 [0] := by
  unfold afterOneSend Domain.history oneSend
  simp only [List.foldl_cons, List.foldl_nil, Domain.act]
  rw [chunksOf_single 1048576 (by decide) (by decide)]
  cases cacheEnabled with
  | true => rfl
  | false => rfl

/-- The kernel's answers and the history of the examples meet the theorem's
conditions, and an aligned hit is harmless: the first half of the buffer is sent
again. -/
theorem aligned_send_denotes_same_bytes :
    sourceRanges (Env.calm numberCookies) 3 true [⟨1048576, 524288⟩] (afterOneSend true)
        = some [some ⟨1048576, 524288⟩]
      ∧ ([some ⟨1048576, 524288⟩] = [some (⟨1048576, 524288⟩ : Region)] ↔
        AlignedHits (Env.calm numberCookies) (chunksOf [⟨1048576, 524288⟩])
          (afterOneSend true)) := by
  have hcached : sourceRanges (Env.calm numberCookies) 3 true [⟨1048576, 524288⟩]
      (afterOneSend true) = some [some ⟨1048576, 524288⟩] := by
    rw [sourceRanges, chunksOf_single 1048576 (by decide) (by decide), afterOneSend_eq]
    decide +kernel
  have huncached : sourceRanges (Env.calm numberCookies) 3 false [⟨1048576, 524288⟩]
      (afterOneSend false) = some [some ⟨1048576, 524288⟩] := by
    rw [sourceRanges, chunksOf_single 1048576 (by decide) (by decide), afterOneSend_eq]
    decide +kernel
  -- the lookup hits, so nothing is registered that could be refused
  have hgrant : ChunksGranted (Env.calm numberCookies) (chunksOf [⟨1048576, 524288⟩])
      (afterOneSend true) := by
    rw [chunksOf_single 1048576 (by decide) (by decide), afterOneSend_eq]
    refine ⟨fun hmiss => ?_, trivial⟩
    exact absurd hmiss (by decide +kernel)
  exact ⟨hcached, cached_ranges_eq_uncached_iff oneSend_along numberCookies_freshLive
    numberCookies_freshLive hgrant hcached huncached⟩

/-- **A send from the interior of a cached buffer denotes the wrong bytes.** One
mebibyte at `1048576` was sent before; sending 128 KiB from 4096 bytes into it
hits the old entry, and the segment denotes the start of the old buffer. Without
the cache it denotes the bytes that were to be sent. -/
theorem interior_send_denotes_wrong_bytes :
    sourceRanges (Env.calm numberCookies) 3 true [⟨1052672, 131072⟩] (afterOneSend true)
        = some [some ⟨1048576, 131072⟩]
      ∧ sourceRanges (Env.calm numberCookies) 3 false [⟨1052672, 131072⟩]
          (afterOneSend false) = some [some ⟨1052672, 131072⟩] := by
  refine ⟨?_, ?_⟩
  · rw [sourceRanges, chunksOf_single 1052672 (by decide) (by decide), afterOneSend_eq]
    decide +kernel
  · rw [sourceRanges, chunksOf_single 1052672 (by decide) (by decide), afterOneSend_eq]
    decide +kernel

/-! ## A refused registration -/

/-- A kernel that returns the first cookie that is not live. -/
def firstCookie (calls : List KernelCall) (_ : Region) : Except ℕ+ UInt64 :=
  match ((List.range (calls.length + 1)).map (fun n => UInt64.ofNat (n + 1))).find?
      (fun c => !isLive calls c) with
  | none => .error fiEnomem
  | some c => .ok c

theorem firstCookie_freshLive : (Env.calm firstCookie).FreshLive := by
  intro calls r c hc
  have hc : firstCookie calls r = .ok c := hc
  unfold firstCookie at hc
  split at hc
  · cases hc
  · rename_i c' hfind
    cases hc
    simpa using List.find?_some hfind

/-- Two buffers are sent, released and evicted; a third is sent, a fourth is refused, a fifth
is sent. -/
def refusedBetween : List DomainAct :=
  let env := Env.calm firstCookie
  [.send env 3 [⟨4096, 4096⟩], .send env 3 [⟨16384, 4096⟩], .release true [0], .release true [1],
    .evict true, .evict true, .send env 3 [⟨32768, 4096⟩],
    .send (Env.calm (fun _ _ => .error fiEnomem)) 3 [⟨65536, 4096⟩], .send env 3 [⟨131072, 4096⟩]]

/-- **A refused registration redirects a hit that is aligned.** The entry it abandons still
holds the cookie of an evicted one, which by then is that of the third buffer; it is freed, and
returned for the fifth. The third buffer is sent again from its start, and the segment denotes
the fifth. -/
theorem refused_registration_redirects_hit :
    let dom := (Domain.opened true (some 3) 1024 268435456).history refusedBetween
    AlignedHits (Env.calm firstCookie) (chunksOf [⟨32768, 4096⟩]) dom
      ∧ sourceRanges (Env.calm firstCookie) 3 true [⟨32768, 4096⟩] dom
        = some [some ⟨131072, 4096⟩] := by
  intro dom
  have hdom : dom = (Domain.opened true (some 3) 1024 268435456).history refusedBetween := rfl
  unfold Domain.history refusedBetween at hdom
  simp only [List.foldl_cons, List.foldl_nil, Domain.act, chunksOf_example] at hdom
  rw [sourceRanges, chunksOf_example, hdom]
  refine ⟨⟨?_, trivial⟩, ?_⟩
  · decide +kernel
  · decide +kernel
