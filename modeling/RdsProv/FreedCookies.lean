import RdsProv.Custody
import RdsProv.Lib.Run

/-!
# Freeing registrations

Which cookies does the provider free? Over a history of a domain in which nobody gives
back what it does not hold, every `RDS_FREE_MR` names a live cookie, provided no
registration made for the cache is refused (`freed_cookies_are_live`).

The proviso is there because of `util_mr_cache_create`. An entry is taken from a pool,
with the bytes of its last use in it; if `rds_cache_add_region` then fails, the entry goes
to `rds_cache_delete_region`, which frees the cookie it finds there. A single refused
registration thus frees the cookie of an earlier entry a second time
(`refused_registration_frees_stale_cookie`).
-/

/-! ## Histories of a domain -/

/-- What happens on a domain. -/
inductive DomainAct where
  /-- A rendezvous send registers its source; if a registration fails it drops
  those it has made. -/
  | send (env : Env) (sock : ℕ) (iov : List Iovec)
  /-- A send is completed, or fails after registering: its registrations are
  released. -/
  | release (cached : Bool) (hs : List ℕ)
  /-- The memory monitor reports an unmapped range. -/
  | invalidate (r : Region)
  /-- The cache is flushed. -/
  | evict (flushLru : Bool)
  /-- The application registers a window. -/
  | reg (env : Env) (sock : ℕ) (r : Region)

/-- One action on a domain. -/
def Domain.act (dom : Domain) : DomainAct → Domain
  | .send env sock iov =>
    let (dom', _, hs, err) := rdsRegChunks env sock dom.cacheEnabled (chunksOf iov) dom
    if err.isSome then rdsUnregChunks dom.cacheEnabled dom' hs else dom'
  | .release cached hs => rdsUnregChunks cached dom hs
  | .invalidate r => ofiMrCacheNotify dom r
  | .evict flushLru => (ofiMrCacheFlush dom flushLru).1
  | .reg env sock r => (rdsRegInternal env dom sock r).1

/-- The domain a history leads to. -/
def Domain.history (dom : Domain) (acts : List DomainAct) : Domain := acts.foldl Domain.act dom

/-- A domain, and the handles held of it: in the cache, and outside. -/
structure Ward where
  dom : Domain
  cached : Multiset ℕ
  plain : Multiset ℕ

namespace Ward

/-- A domain that was just opened. -/
def opened (cacheEnabled : Bool) (regEp : Option ℕ) (maxCnt maxSize : ℕ) : Ward :=
  ⟨Domain.opened cacheEnabled regEp maxCnt maxSize, 0, 0⟩

/-- One action. The domain does what it does; a send that succeeds holds its
registrations until it releases them, the application its windows. -/
def act (w : Ward) (a : DomainAct) : Ward :=
  match a with
  | .send env sock iov =>
    let reg := rdsRegChunks env sock w.dom.cacheEnabled (chunksOf iov) w.dom
    if reg.2.2.2.isSome then ⟨w.dom.act a, w.cached, w.plain⟩
    else ⟨w.dom.act a, cachedPart w.dom.cacheEnabled reg.2.2.1 + w.cached,
      plainPart w.dom.cacheEnabled reg.2.2.1 + w.plain⟩
  | .release isCached hs =>
    ⟨w.dom.act a, w.cached - cachedPart isCached hs, w.plain - plainPart isCached hs⟩
  | .invalidate _ | .evict _ => ⟨w.dom.act a, w.cached, w.plain⟩
  | .reg env sock r =>
    ⟨w.dom.act a, w.cached, match (rdsRegInternal env w.dom sock r).2 with
      | .error _ => w.plain
      | .ok mr => mr.handle ::ₘ w.plain⟩

/-- The holders are bookkeeping: the domain acts as it does. -/
theorem act_dom (w : Ward) (a : DomainAct) : (w.act a).dom = w.dom.act a := by
  cases a with
  | send env sock iov =>
    unfold Ward.act
    dsimp only
    split
    · rfl
    · rfl
  | release isCached hs => rfl
  | invalidate r => rfl
  | evict flushLru => rfl
  | reg env sock r => rfl

theorem foldl_dom (w : Ward) (acts : List DomainAct) :
    (acts.foldl Ward.act w).dom = w.dom.history acts := by
  induction acts generalizing w with
  | nil => rfl
  | cons a acts ih =>
    rw [List.foldl_cons, ih, act_dom]
    rfl

/-- What is possible: only what is held is released, and the kernel hands out no cookie
that is live. -/
def Admits (w : Ward) : DomainAct → Prop
  | .send env _ _ => env.FreshLive
  | .release isCached hs => cachedPart isCached hs ≤ w.cached ∧ plainPart isCached hs ≤ w.plain
  | .invalidate _ | .evict _ => True
  | .reg env _ _ => env.FreshLive

/-- No registration that an action makes for the cache is refused. -/
def Granted (w : Ward) : DomainAct → Prop
  | .send env _ iov => w.dom.cacheEnabled = true → ChunksGranted env (chunksOf iov) w.dom
  | _ => True

/-- The holders are accounted for, and every cookie has one owner. -/
def InCustody (w : Ward) : Prop := w.dom.Custody True w.cached w.plain

/-- **One action keeps custody.** -/
theorem InCustody.act {w : Ward} (h : w.InCustody) {a : DomainAct} (hadm : w.Admits a)
    (hgrant : w.Granted a) : (w.act a).InCustody := by
  unfold InCustody at h ⊢
  cases a with
  | send env sock iov =>
    have hreg := Domain.Custody.regChunks (fun _ => hadm) sock w.dom.cacheEnabled (chunksOf iov)
      (fun _ r => len_le_of_mem_chunksOf) h (fun _ => hgrant)
    unfold Ward.act Domain.act
    dsimp only
    generalize rdsRegChunks env sock w.dom.cacheEnabled (chunksOf iov) w.dom = reg at hreg
    obtain ⟨d, segs, hs, err⟩ := reg
    dsimp only at hreg ⊢
    cases err with
    | some e => exact hreg.unregChunks
    | none => exact hreg
  | release isCached hs =>
    refine Domain.Custody.unregChunks isCached hs ?_
    show w.dom.Custody True (cachedPart isCached hs + (w.cached - cachedPart isCached hs))
      (plainPart isCached hs + (w.plain - plainPart isCached hs))
    rw [add_tsub_cancel_of_le hadm.1, add_tsub_cancel_of_le hadm.2]
    exact h
  | invalidate r => exact h.notify r
  | evict flushLru => exact h.flush flushLru
  | reg env sock r =>
    unfold Ward.act Domain.act
    dsimp only
    cases hres : rdsRegInternal env w.dom sock r with
    | mk d res =>
      have hreg := Domain.Custody.regInternal (fun _ => hadm) h sock r hres
      cases res with
      | error e => exact hreg
      | ok mr => exact hreg

/-- **Custody holds after every history** in which no registration made for the cache is
refused. -/
theorem inCustody (cacheEnabled : Bool) (regEp : Option ℕ) (maxCnt maxSize : ℕ)
    {acts : List DomainAct}
    (hacts : Along Ward.act (fun w a => w.Admits a ∧ w.Granted a)
      (Ward.opened cacheEnabled regEp maxCnt maxSize) acts) :
    (acts.foldl Ward.act (Ward.opened cacheEnabled regEp maxCnt maxSize)).InCustody := by
  have hopened : (Ward.opened cacheEnabled regEp maxCnt maxSize).InCustody :=
    .opened cacheEnabled regEp maxCnt maxSize
  exact Along.invariant (fun w a h hok => h.act hok.1 hok.2) hopened hacts

/-- **Only live cookies are freed**: in every history in which no registration made for the
cache is refused, each `RDS_FREE_MR` names a cookie that was returned before and has not
been freed since. -/
theorem freed_cookies_are_live (cacheEnabled : Bool) (regEp : Option ℕ) (maxCnt maxSize : ℕ)
    (acts : List DomainAct)
    (hacts : Along Ward.act (fun w a => w.Admits a ∧ w.Granted a)
      (Ward.opened cacheEnabled regEp maxCnt maxSize) acts) :
    FreesLive (acts.foldl Ward.act (Ward.opened cacheEnabled regEp maxCnt maxSize)).dom.kcalls :=
  ((inCustody cacheEnabled regEp maxCnt maxSize hacts).owned trivial).frees

end Ward

/-! ## A refused registration -/

/-- A kernel that numbers its cookies. -/
def numberCookies (calls : List KernelCall) (_ : Region) : Except ℕ+ UInt64 :=
  let c := UInt64.ofNat (calls.length + 1)
  if (regionOf calls c).isSome then .error fiEnomem else .ok c

theorem numberCookies_freshLive : (Env.calm numberCookies).FreshLive := by
  intro calls r c hc
  have hc : numberCookies calls r = .ok c := hc
  unfold numberCookies at hc
  dsimp only at hc
  split at hc
  · cases hc
  · rename_i hnone
    cases hc
    rw [isLive_eq_isSome]
    exact Bool.eq_false_iff.mpr hnone

/-- A buffer is sent, the send completes, and the entry is evicted. -/
def sendAndEvict : List DomainAct :=
  [.send (Env.calm numberCookies) 3 [⟨1048576, 4096⟩], .release true [0], .evict true]

/-- The domain of the examples. -/
def cachedWard : Ward := Ward.opened true (some 3) 1024 268435456

/-- The buffer of the examples is one chunk. -/
theorem chunksOf_example (base : ℕ) : chunksOf [⟨base, 4096⟩] = [⟨base, 4096⟩] :=
  chunksOf_single base (by decide) (by decide)

/-- The send of the examples registers its buffer and holds the entry. -/
theorem cachedWard_send :
    (cachedWard.act (.send (Env.calm numberCookies) 3 [⟨1048576, 4096⟩])).cached = {0} := by
  unfold Ward.act
  dsimp only
  rw [chunksOf_example]
  decide +kernel

/-- Only what is held is released in that history. -/
theorem sendAndEvict_admits : Along Ward.act Ward.Admits cachedWard sendAndEvict := by
  refine ⟨numberCookies_freshLive, ⟨?_, ?_⟩, trivial, trivial⟩
  · rw [cachedWard_send]
    exact le_rfl
  · exact Multiset.zero_le _

/-- Nothing is refused in that history. -/
theorem sendAndEvict_granted : Along Ward.act Ward.Granted cachedWard sendAndEvict := by
  refine ⟨fun _ => ?_, trivial, trivial, trivial⟩
  rw [chunksOf_example]
  refine ⟨fun _ => ⟨fun _ => .inr ⟨1, rfl⟩, ?_⟩, ?_⟩
  · trivial
  · trivial

/-- Nothing is refused in that history, and the one cookie is freed once. -/
theorem evicted_cookie_freed_once :
    (sendAndEvict.foldl Ward.act cachedWard).dom.kcalls
        = [.getMr 3 ⟨1048576, 4096⟩ 1, .freeMr 3 1]
      ∧ FreesLive (sendAndEvict.foldl Ward.act cachedWard).dom.kcalls := by
  refine ⟨?_, Ward.freed_cookies_are_live true (some 3) 1024 268435456 sendAndEvict
    (Along.and sendAndEvict_admits sendAndEvict_granted)⟩
  rw [Ward.foldl_dom]
  unfold Domain.history sendAndEvict
  simp only [List.foldl_cons, List.foldl_nil, Domain.act, chunksOf_example]
  decide +kernel

/-- **A refused registration frees a cookie a second time.** After that history another
send is refused its registration. The entry it abandons still holds the cookie of the
evicted one. -/
theorem refused_registration_frees_stale_cookie :
    let refusing := Env.calm (fun _ _ => .error fiEnomem)
    let acts := sendAndEvict ++ [.send refusing 3 [⟨2097152, 4096⟩]]
    Along Ward.act Ward.Admits cachedWard acts
      ∧ (acts.foldl Ward.act cachedWard).dom.kcalls
        = [.getMr 3 ⟨1048576, 4096⟩ 1, .freeMr 3 1, .freeMr 3 1]
      ∧ ¬ FreesLive (acts.foldl Ward.act cachedWard).dom.kcalls := by
  intro refusing acts
  have hcalls : (acts.foldl Ward.act cachedWard).dom.kcalls
      = [.getMr 3 ⟨1048576, 4096⟩ 1, .freeMr 3 1, .freeMr 3 1] := by
    rw [Ward.foldl_dom]
    unfold Domain.history
    simp only [acts, sendAndEvict, List.cons_append, List.nil_append, List.foldl_cons,
      List.foldl_nil, Domain.act, chunksOf_example]
    decide +kernel
  refine ⟨Along.append.mpr ⟨sendAndEvict_admits, fun calls r c hc => ?_, trivial⟩, hcalls, ?_⟩
  · cases hc
  · rw [hcalls]
    intro hfrees
    exact absurd (hfrees 2 3 1 rfl) (by decide)
