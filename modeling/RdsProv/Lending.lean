import RdsProv.Holders

/-!
# Whose socket a registration is on

A registration lives on the socket it was made through, and dies with it. A plain one
is made through the socket of the endpoint that makes it; one for the cache is made
through the socket that the domain borrows from its registering endpoint. The record
of a plain registration says which socket that was, an entry of the cache does not:
for it, `sockOf` reads the socket off the calls made.

`Domain.Rooted up lender dom` says that all registrations of a domain are on sockets
that are `up`. Everything but registering only forgets registrations (`Shrinks` for
the cache, `Domain.Frees` for the rest), and what an endpoint does to its domain is a
sequence of four operations (`Domain.Move`), so the invariant is proved for these and
holds for every action.
-/

/-! ## The socket of a cookie -/

/-- The socket a cookie was last registered through. -/
def sockOf (calls : List KernelCall) (c : UInt64) : Option ℕ :=
  calls.foldl (fun s k => match k with
    | .getMr s' _ c' => if c' = c then some s' else s
    | .freeMr _ _ => s) none

theorem sockOf_append_getMr (calls : List KernelCall) (s : ℕ) (r : Region) (c c' : UInt64) :
    sockOf (calls ++ [.getMr s r c']) c = if c' = c then some s else sockOf calls c := by
  unfold sockOf
  rw [List.foldl_append]
  rfl

/-- A call that releases a registration. -/
def KernelCall.IsFree (k : KernelCall) : Prop := ∃ s c, k = .freeMr s c

/-- Releasing registrations moves none to another socket. -/
theorem sockOf_append_frees (calls : List KernelCall) {l : List KernelCall}
    (hl : ∀ k ∈ l, k.IsFree) (c : UInt64) : sockOf (calls ++ l) c = sockOf calls c := by
  unfold sockOf
  rw [List.foldl_append]
  induction l generalizing calls with
  | nil => rfl
  | cons k l ih =>
    obtain ⟨s, c', rfl⟩ := hl k List.mem_cons_self
    exact ih calls (fun k hk => hl k (List.mem_cons_of_mem _ hk))

/-! ## What is only released -/

/-- **Outside the cache, registrations are only released.** -/
structure Domain.Frees (dom dom' : Domain) : Prop where
  regEp : dom'.regEp = dom.regEp
  mrs : ∀ m ∈ dom'.mrs, ∃ m₀ ∈ dom.mrs, m₀.handle = m.handle ∧ m₀.sock = m.sock
  calls : ∃ l, dom'.kcalls = dom.kcalls ++ l ∧ ∀ k ∈ l, k.IsFree

namespace Domain.Frees

/-- A step of the cache that calls no one. -/
theorem of_eq {dom dom' : Domain} (hregEp : dom'.regEp = dom.regEp) (hmrs : dom'.mrs = dom.mrs)
    (hcalls : dom'.kcalls = dom.kcalls) : dom.Frees dom' where
  regEp := hregEp
  mrs m hm := ⟨m, hmrs ▸ hm, rfl, rfl⟩
  calls := ⟨[], by rw [hcalls, List.append_nil], by simp⟩

theorem refl (dom : Domain) : dom.Frees dom := of_eq rfl rfl rfl

theorem trans {d₁ d₂ d₃ : Domain} (h : d₁.Frees d₂) (h' : d₂.Frees d₃) : d₁.Frees d₃ where
  regEp := h'.regEp.trans h.regEp
  mrs m hm := by
    obtain ⟨m₂, hm₂, hhandle₂, hsock₂⟩ := h'.mrs m hm
    obtain ⟨m₁, hm₁, hhandle₁, hsock₁⟩ := h.mrs m₂ hm₂
    exact ⟨m₁, hm₁, hhandle₁.trans hhandle₂, hsock₁.trans hsock₂⟩
  calls := by
    obtain ⟨l, hl, hfree⟩ := h.calls
    obtain ⟨l', hl', hfree'⟩ := h'.calls
    refine ⟨l ++ l', by rw [hl', hl, List.append_assoc], fun k hk => ?_⟩
    obtain hk | hk := List.mem_append.mp hk
    · exact hfree k hk
    · exact hfree' k hk

/-- Releasing in turn. -/
theorem foldl {α : Type} {f : Domain → α → Domain} (hf : ∀ (dom : Domain) a, dom.Frees (f dom a))
    (l : List α) (dom : Domain) : dom.Frees (l.foldl f dom) := by
  induction l generalizing dom with
  | nil => exact refl dom
  | cons a l ih => exact (hf dom a).trans (ih (f dom a))

/-- **The socket of a cookie stays**, released or not. -/
theorem sockOf_eq {dom dom' : Domain} (h : dom.Frees dom') (c : UInt64) :
    sockOf dom'.kcalls c = sockOf dom.kcalls c := by
  obtain ⟨l, hl, hfree⟩ := h.calls
  rw [hl, sockOf_append_frees _ hfree]

theorem kernelFree (dom : Domain) (sock : ℕ) (c : UInt64) :
    dom.Frees (rdsKernelFree dom sock c) where
  regEp := rfl
  mrs m hm := ⟨m, hm, rfl, rfl⟩
  calls := ⟨[.freeMr sock c], rfl, fun _ hk => ⟨sock, c, List.mem_singleton.mp hk⟩⟩

/-- An entry is released through the borrowed socket, if there still is one. -/
theorem deleteRegion (dom : Domain) (c : UInt64) : dom.Frees (rdsCacheDeleteRegion dom c) := by
  unfold rdsCacheDeleteRegion
  split
  · exact refl dom
  · exact kernelFree dom _ c

/-- An entry that is gone is released once. -/
theorem freeEntry (dom : Domain) (x : ℕ) : dom.Frees (utilMrFreeEntry dom x) := by
  unfold utilMrFreeEntry
  split
  · exact refl dom
  · exact (deleteRegion dom _).trans (of_eq rfl rfl rfl)

/-- A change of the cache itself. -/
theorem cache (dom : Domain) (c : MrCache) : dom.Frees { dom with cache := c } := of_eq rfl rfl rfl

/-- What is flushed is released entry by entry. -/
theorem flush (dom : Domain) (flushLru : Bool) : dom.Frees (ofiMrCacheFlush dom flushLru).1 :=
  (cache dom _).trans (foldl freeEntry _ _)

theorem prune (dom : Domain) : dom.Frees (cachePrune dom) := by
  unfold cachePrune
  dsimp only
  split
  · have htick : dom.Frees { dom with tick := dom.tick + 1 } := of_eq rfl rfl rfl
    exact htick.trans (flush _ _)
  · exact of_eq rfl rfl rfl

/-- An entry that is no longer used is kept, or released if it is out of the tree. -/
theorem cacheDelete (dom : Domain) (x : ℕ) : dom.Frees (ofiMrCacheDelete dom x) := by
  unfold ofiMrCacheDelete
  split
  · exact refl dom
  dsimp only
  split
  · exact of_eq rfl rfl rfl
  split
  · exact of_eq rfl rfl rfl
  · exact (cache dom _).trans (freeEntry _ x)

/-- A plain registration counts its users, and goes with the last. -/
theorem mrPut (dom : Domain) (x : ℕ) : dom.Frees (rdsMrPut dom x) := by
  unfold rdsMrPut
  split
  · exact refl dom
  split
  · refine ⟨rfl, fun m hm => ?_, [], (List.append_nil _).symm, by simp⟩
    obtain ⟨m₀, hm₀, rfl⟩ := List.mem_map.mp hm
    refine ⟨m₀, hm₀, ?_⟩
    split
    · exact ⟨rfl, rfl⟩
    · exact ⟨rfl, rfl⟩
  · have hgone : dom.Frees { dom with mrs := dom.mrs.filter (·.handle != x) } :=
      ⟨rfl, fun m hm => ⟨m, (List.mem_filter.mp hm).1, rfl, rfl⟩, [], (List.append_nil _).symm,
        by simp⟩
    exact hgone.trans (kernelFree _ _ _)

/-- The registrations of a failed or finished send. -/
theorem unregChunks (isCached : Bool) (dom : Domain) (hs : List ℕ) :
    dom.Frees (rdsUnregChunks isCached dom hs) := by
  unfold rdsUnregChunks
  cases isCached with
  | false => exact foldl mrPut hs dom
  | true => exact foldl cacheDelete hs dom

end Domain.Frees

/-! ## Registrations on sockets that are up -/

/-- **Every registration of a domain is on a socket that is up**, and the domain borrows
the socket of `lender`. -/
structure Domain.Rooted (up : ℕ → Prop) (lender : Option ℕ) (dom : Domain) : Prop where
  lends : dom.regEp = lender
  lenderUp : ∀ s, lender = some s → up s
  mrs : ∀ m ∈ dom.mrs, up m.sock
  entries : ∀ x ∈ dom.cache.entries, ∃ s, sockOf dom.kcalls x.cookie = some s ∧ up s
  below : ∀ x ∈ dom.cache.entries, x.handle < dom.nextHandle

namespace Domain.Rooted

variable {up : ℕ → Prop} {lender : Option ℕ} {dom : Domain}

theorem tick (h : dom.Rooted up lender) (t : ℕ) :
    Domain.Rooted up lender { dom with tick := t } :=
  ⟨h.lends, h.lenderUp, h.mrs, h.entries, h.below⟩

/-- **Forgetting registrations** leaves the rest where they are. -/
theorem shed (h : dom.Rooted up lender) {dom' : Domain} (hs : dom.Shrinks dom')
    (hf : dom.Frees dom') : dom'.Rooted up lender := by
  have hold : ∀ x ∈ dom'.cache.entries, ∃ x₀ ∈ dom.cache.entries, x₀.core = x.core :=
    fun x hx => List.mem_map.mp (hs.entries.subset (List.mem_map_of_mem hx))
  refine ⟨hf.regEp.trans h.lends, h.lenderUp, fun m hm => ?_, fun x hx => ?_, fun x hx => ?_⟩
  · obtain ⟨m₀, hm₀, -, hsock⟩ := hf.mrs m hm
    exact hsock ▸ h.mrs m₀ hm₀
  · obtain ⟨x₀, hx₀, hcore⟩ := hold x hx
    rw [hf.sockOf_eq, ← show x₀.cookie = x.cookie from congrArg (·.2.2) hcore]
    exact h.entries x₀ hx₀
  · obtain ⟨x₀, hx₀, hcore⟩ := hold x hx
    rw [hs.next, ← show x₀.handle = x.handle from congrArg (·.1) hcore]
    exact h.below x₀ hx₀

/-- **A registration is made through a socket that is up.** -/
theorem getMr (h : dom.Rooted up lender) {s : ℕ} (hs : up s) (r : Region) (c : UInt64) :
    Domain.Rooted up lender { dom with kcalls := dom.kcalls ++ [.getMr s r c] } := by
  refine ⟨h.lends, h.lenderUp, h.mrs, fun x hx => ?_, h.below⟩
  show ∃ s', sockOf (dom.kcalls ++ [.getMr s r c]) x.cookie = some s' ∧ up s'
  rw [sockOf_append_getMr]
  split
  · exact ⟨s, rfl, hs⟩
  · exact h.entries x hx

/-- A newly registered entry is on the borrowed socket. -/
theorem withEntry (h : dom.Rooted up lender) {s : ℕ} (hs : dom.regEp = some s) (r : Region)
    (c : UInt64) : (dom.withEntry s r c).Rooted up lender := by
  have hup : up s := h.lenderUp s (h.lends.symm.trans hs)
  have hreg := h.getMr hup r c
  refine ⟨h.lends, h.lenderUp, h.mrs, fun x hx => ?_, fun x hx => ?_⟩
  · obtain hx | hx := List.mem_append.mp hx
    · exact hreg.entries x hx
    · rw [List.mem_singleton.mp hx]
      refine ⟨s, ?_, hup⟩
      show sockOf (dom.kcalls ++ [.getMr s r c]) c = some s
      rw [sockOf_append_getMr, if_pos rfl]
  · obtain hx | hx := List.mem_append.mp hx
    · exact Nat.lt_succ_of_lt (h.below x hx)
    · rw [List.mem_singleton.mp hx]
      exact Nat.lt_succ_self _

/-- An entry that could not be registered is abandoned. -/
theorem abandonRefused (h : dom.Rooted up lender) (r : Region) :
    (utilMrFreeEntry (utilMrEntryAlloc dom r) dom.nextHandle).Rooted up lender := by
  have hfree := utilMrFreeEntry_last (e := ⟨dom.nextHandle, r, dom.cache.pool.headD 0, 1, false⟩)
    (show (utilMrEntryAlloc dom r).cache.entries = _ from rfl) (fun x hx => (h.below x hx).ne)
  have hdel := Domain.Frees.deleteRegion (utilMrEntryAlloc dom r) (dom.cache.pool.headD 0)
  have hnext : (rdsCacheDeleteRegion (utilMrEntryAlloc dom r) (dom.cache.pool.headD 0)).nextHandle
      = dom.nextHandle + 1 :=
    (Domain.Shrinks.deleteRegion (utilMrEntryAlloc dom r) (dom.cache.pool.headD 0)).next
  rw [hfree]
  refine ⟨hdel.regEp.trans h.lends, h.lenderUp, fun m hm => ?_, fun x hx => ?_, fun x hx => ?_⟩
  · obtain ⟨m₀, hm₀, -, hsock⟩ := hdel.mrs m hm
    exact hsock ▸ h.mrs m₀ hm₀
  · show ∃ s, sockOf (rdsCacheDeleteRegion _ _).kcalls x.cookie = some s ∧ up s
    rw [hdel.sockOf_eq]
    exact h.entries x hx
  · show x.handle < (rdsCacheDeleteRegion _ _).nextHandle
    rw [hnext]
    exact Nat.lt_succ_of_lt (h.below x hx)

/-- **A new entry is on the borrowed socket**, whatever becomes of it: it may be abandoned before it
is registered, released for want of room, or enter the tree. -/
theorem create (env : Env) (h : dom.Rooted up lender) (r : Region) :
    (utilMrCacheCreate env dom r).1.Rooted up lender := by
  have htick := h.tick (dom.tick + 1)
  have hfree (d : Domain) (hd : d.Rooted up lender) : (utilMrFreeEntry d dom.nextHandle).Rooted up
      lender := hd.shed (.freeEntry d _) (.freeEntry d _)
  unfold utilMrCacheCreate
  dsimp only
  split
  · exact htick
  obtain ⟨err, hadd, -⟩ | ⟨s, c, hregEp, -, hadd⟩ :=
    rdsCacheAddRegion_cases env htick.below r
  · rw [hadd]
    exact htick.abandonRefused r
  rw [hadd]
  have hentry := (htick.withEntry hregEp r c).tick (dom.tick + 1 + 1)
  dsimp only
  split
  · exact hfree _ hentry
  split
  · exact hfree _ hentry
  split
  · exact hentry
  · -- entering the tree keeps the cookie and the handle
    have hmod : ∀ x ∈ (MrCache.modify (Domain.withEntry { dom with tick := dom.tick + 1 } s r
        c).cache dom.nextHandle (fun e => { e with inTree := true })).entries,
        ∃ x₀ ∈ (Domain.withEntry { dom with tick := dom.tick + 1 } s r c).cache.entries,
          x₀.core = x.core := by
      intro x hx
      obtain ⟨x₀, hx₀, rfl⟩ := List.mem_map.mp hx
      refine ⟨x₀, hx₀, ?_⟩
      split <;> rfl
    refine ⟨hentry.lends, hentry.lenderUp, hentry.mrs, fun x hx => ?_, fun x hx => ?_⟩
    · obtain ⟨x₀, hx₀, hcore⟩ := hmod x hx
      rw [← show x₀.cookie = x.cookie from congrArg (·.2.2) hcore]
      exact hentry.entries x₀ hx₀
    · obtain ⟨x₀, hx₀, hcore⟩ := hmod x hx
      rw [← show x₀.handle = x.handle from congrArg (·.1) hcore]
      exact hentry.below x₀ hx₀

/-- A search creates an entry or takes one that is there; before it tries again it may flush. -/
theorem searchLoop (env : Env) (fuel : ℕ) (h : dom.Rooted up lender) (r : Region) :
    (ofiMrCacheSearchLoop env fuel dom r).1.Rooted up lender := by
  induction fuel generalizing dom with
  | zero => exact h
  | succ fuel ih =>
    have hprune := h.shed (.prune dom) (.prune dom)
    rw [ofiMrCacheSearchLoop]
    split
    · rename_i e _
      exact hprune.shed (.take _ e) (.of_eq rfl rfl rfl)
    · have hpurge := hprune.shed (.purge _ r) (.of_eq rfl rfl rfl)
      have hcreate := hpurge.create env r
      split
      · rename_i d x heq
        rw [heq] at hcreate
        exact hcreate
      · rename_i d err heq
        rw [heq] at hcreate
        have hflush := hcreate.shed (.flush d true) (.flush d true)
        split
        · exact ih hcreate
        · split
          · rename_i d' heq'
            rw [heq'] at hflush
            exact ih hflush
          · rename_i d' heq'
            rw [heq'] at hflush
            exact hflush

theorem regCacheGet (env : Env) (h : dom.Rooted up lender) (r : Region) :
    (rdsRegCacheGet env dom r).1.Rooted up lender := by
  have hsearch := h.searchLoop env env.searchRounds r
  unfold rdsRegCacheGet ofiMrCacheSearch
  split
  · exact h
  split
  · rename_i d e heq
    rw [heq] at hsearch
    exact hsearch
  · rename_i d x heq
    rw [heq] at hsearch
    split
    · exact hsearch
    · exact hsearch

/-- A plain registration is on the socket of its endpoint; one that has no record is released. -/
theorem regInternal (env : Env) (h : dom.Rooted up lender) {sock : ℕ} (hup : up sock) (r : Region) :
    (rdsRegInternal env dom sock r).1.Rooted up lender := by
  unfold rdsRegInternal rdsKernelReg
  by_cases hlen : rdsKernelSegMax < r.len
  · rw [if_pos hlen]
    exact h
  rw [if_neg hlen]
  cases hc : env.getMr dom.kcalls r with
  | error e => exact h
  | ok c =>
    have hreg := h.getMr hup r c
    dsimp only
    split
    · refine ⟨h.lends, h.lenderUp, fun m hm => ?_, hreg.entries,
        fun x hx => Nat.lt_succ_of_lt (h.below x hx)⟩
      obtain hm | hm := List.mem_append.mp hm
      · exact h.mrs m hm
      · rw [List.mem_singleton.mp hm]
        exact hup
    · exact (hreg.tick _).shed (.kernelFree _ _ _) (.kernelFree _ _ _)

end Domain.Rooted

/-! ## What an endpoint does to its domain -/

/-- One operation of an endpoint, named by its socket, on its domain. -/
inductive Domain.Move (sock : ℕ) (dom : Domain) : Domain → Prop
  | regInternal (env : Env) (r : Region) : Move sock dom (rdsRegInternal env dom sock r).1
  | mrPut (x : ℕ) : Move sock dom (rdsMrPut dom x)
  | cacheGet (env : Env) (r : Region) : Move sock dom (rdsRegCacheGet env dom r).1
  | cachePut (x : ℕ) : Move sock dom (rdsRegCachePut dom x)

/-- Some operations. -/
def Domain.Moves (sock : ℕ) : Domain → Domain → Prop := Relation.ReflTransGen (Domain.Move sock)

/-- **What an endpoint does to its domain leaves registrations on sockets that are
up**, if its own is. -/
theorem Domain.Rooted.moves {up : ℕ → Prop} {lender : Option ℕ} {dom dom' : Domain}
    (h : dom.Rooted up lender) {sock : ℕ} (hup : up sock) (hm : dom.Moves sock dom') :
    dom'.Rooted up lender := by
  induction hm with
  | refl => exact h
  | tail _ hstep ih =>
    cases hstep with
    | regInternal env r => exact ih.regInternal env hup r
    | mrPut x => exact ih.shed (.mrPut _ x) (.mrPut _ x)
    | cacheGet env r => exact ih.regCacheGet env r
    | cachePut x => exact ih.shed (.cacheDelete _ x) (.cacheDelete _ x)

namespace Domain.Moves

variable {sock : ℕ}

theorem unregChunks (isCached : Bool) (dom : Domain) (hs : List ℕ) :
    dom.Moves sock (rdsUnregChunks isCached dom hs) := by
  unfold rdsUnregChunks
  induction hs generalizing dom with
  | nil => exact .refl
  | cons x hs ih =>
    refine .head ?_ (ih _)
    cases isCached with
    | false => exact .mrPut x
    | true => exact .cachePut x

/-- A piece of a source is registered through the cache or on its own. -/
theorem regChunk (env : Env) (isCached : Bool) (dom : Domain) (r : Region) :
    dom.Moves sock (rdsRegChunk env dom sock isCached r).1 := by
  unfold rdsRegChunk
  split
  · exact .single (.cacheGet env r)
  · have hmove : dom.Moves sock (rdsRegInternal env dom sock r).1 := .single (.regInternal env r)
    split
    · rename_i d e heq
      rw [heq] at hmove
      exact hmove
    · rename_i d mr heq
      rw [heq] at hmove
      exact hmove

/-- Pieces are registered one after the other, up to the first that fails. -/
theorem regChunks (env : Env) (isCached : Bool) (rs : List Region) (dom : Domain) :
    dom.Moves sock (rdsRegChunks env sock isCached rs dom).1 := by
  induction rs generalizing dom with
  | nil => exact .refl
  | cons r rs ih =>
    have hmove : dom.Moves sock (rdsRegChunk env dom sock isCached r).1 :=
      regChunk env isCached dom r
    rw [rdsRegChunks]
    split
    · rename_i d e heq
      rw [heq] at hmove
      exact hmove
    · rename_i d c x heq
      rw [heq] at hmove
      exact hmove.trans (ih d)

end Domain.Moves

/-- **A step of an endpoint that treats its domain as endpoints do.** -/
structure Ep.Registers (ep ep' : Ep) : Prop where
  cfg : ep'.cfg = ep.cfg
  moves : ep.domain.Moves ep.cfg.sock ep'.domain

namespace Ep.Registers

theorem of_eq {ep ep' : Ep} (hcfg : ep'.cfg = ep.cfg) (hdom : ep'.domain = ep.domain) :
    ep.Registers ep' := by
  refine ⟨hcfg, ?_⟩
  rw [hdom]
  exact .refl

theorem refl (ep : Ep) : ep.Registers ep := of_eq rfl rfl

theorem trans {e₁ e₂ e₃ : Ep} (h : e₁.Registers e₂) (h' : e₂.Registers e₃) : e₁.Registers e₃ where
  cfg := h'.cfg.trans h.cfg
  moves := h.moves.trans (h.cfg ▸ h'.moves)

/-- Receiving leaves the domain alone. -/
theorem of_inward {ep ep' : Ep} (h : ep.Inward ep') : ep.Registers ep' := of_eq h.cfg h.domain

/-- A send gives back what it registered. -/
theorem release (ep : Ep) (isCached : Bool) (hs : List ℕ) :
    ep.Registers { ep with domain := rdsUnregChunks isCached ep.domain hs } :=
  ⟨rfl, .unregChunks isCached ep.domain hs⟩

theorem setPeer (ep : Ep) (p : Peer) : ep.Registers (ep.setPeer p) := of_eq rfl rfl

/-! ### The ring -/

theorem regInternal (env : Env) (ep : Ep) (r : Region) : ep.Registers (ep.regInternal env r).1 := by
  have hmove : ep.domain.Moves ep.cfg.sock (rdsRegInternal env ep.domain ep.cfg.sock r).1 :=
    .single (.regInternal env r)
  unfold Ep.regInternal
  split
  · rename_i d e heq
    rw [heq] at hmove
    exact ⟨rfl, hmove⟩
  · rename_i d mr heq
    rw [heq] at hmove
    exact ⟨rfl, hmove⟩

theorem mrPut (ep : Ep) (mr : Option RdsMr) : ep.Registers (ep.mrPut mr) := by
  cases mr with
  | none => exact refl ep
  | some mr => exact ⟨rfl, .single (.mrPut mr.handle)⟩

/-- A new peer registers its ring and its credit cell, and gives both back if one fails. -/
theorem peerRegister (env : Env) (ep : Ep) (p : Peer) (ring credit : ℕ) :
    ep.Registers (rdsPeerRegister env ep p ring credit).1 := by
  have hboth (r r' : Region) : ep.Registers ((ep.regInternal env r).1.regInternal env r').1 :=
    (regInternal env ep r).trans (regInternal env _ r')
  unfold rdsPeerRegister
  dsimp only
  split
  · exact hboth _ _
  · exact (hboth _ _).trans ((mrPut _ _).trans (mrPut _ _))

/-- Only a peer that is created registers anything. -/
theorem peerGet {env : Env} {ep e : Ep} {addr : UInt64} {p? : Option Peer}
    (h : rdsPeerGet env ep addr = (e, p?)) : ep.Registers e := by
  rw [show e = (rdsPeerGet env ep addr).1 from (congrArg Prod.fst h).symm]
  refine rdsPeerGet_elim (fun _ _ => refl ep) (fun _ _ => refl ep) (fun _ _ _ => of_eq rfl rfl)
    (fun sa e p _ _ _ hreg => ?_)
  have hmove := peerRegister env { ep with tick := ep.tick + 4 } (Peer.blank addr sa)
    (env.heap (ep.tick + 1)) (env.heap (ep.tick + 3))
  rw [hreg] at hmove
  exact ⟨hmove.cfg, hmove.moves⟩

theorem ringSendCtrl (env : Env) (ep : Ep) (p : Peer) (op : UInt8) :
    ep.Registers (rdsRingSendCtrl env ep p op) :=
  rdsRingSendCtrl_elim (refl ep) (of_eq rfl rfl) (fun _ _ _ _ => of_eq rfl rfl)

/-- A handshake may create the peer it came from. -/
theorem ringHandleCtrl (env : Env) (ep : Ep) (hdr : Hdr) (payload : List UInt8) (srcFi : UInt64) :
    ep.Registers (rdsRingHandleCtrl env ep hdr payload srcFi) := by
  refine rdsRingHandleCtrl_elim (refl ep) (fun _ h => peerGet h) (fun _ _ h => peerGet h)
    (fun _ _ h _ _ => (peerGet h).trans (of_eq rfl rfl)) (fun e p h _ _ _ => ?_)
  refine (peerGet h).trans (.trans ?_ (setPeer _ _))
  split
  · exact ringSendCtrl env e p _
  · exact refl e

/-- Connecting registers nothing: the peer has its ring. -/
theorem ringConnect (env : Env) (ep : Ep) (p : Peer) :
    ep.Registers (rdsRingConnect env ep p).1 := by
  refine rdsRingConnect_elim (fun e q _ he _ => ?_) (fun e q _ he _ _ => ?_)
    (fun _ => of_eq rfl rfl) (fun _ _ => of_eq rfl rfl)
  · rw [he]
    exact (ringSendCtrl env ep p _).trans (of_eq rfl rfl)
  · rw [he]
    exact (ringSendCtrl env ep p _).trans (of_eq rfl rfl)

/-- A send over the ring registers at most a new peer. -/
theorem ringSend {env : Env} {ep e : Ep} {payload : List UInt8} {dest tag data : UInt64}
    {context : ℕ} {flags : UInt64} {tagged genComp : Bool} {op : UInt8} {ret : Ret}
    (h : rdsRingSend env ep payload dest tag data context flags tagged genComp op = (e, ret)) :
    ep.Registers e := by
  rw [show e = _ from (congrArg Prod.fst h).symm]
  have htouch {e : Ep} {p : Peer} (h : rdsPeerGet env ep dest = (e, some p)) :
      ep.Registers (e.touchPeer p) := (peerGet h).trans (of_eq rfl rfl)
  refine rdsRingSend_elim (fun _ => refl ep) (fun _ h => peerGet h) (fun e p _ _ h _ => ?_)
    (fun _ _ h _ => htouch h) (fun _ p h _ _ => (htouch h).trans (ringConnect env _ p))
  exact (htouch h).trans (rdsRingPlace_elim (fun _ _ _ => of_eq rfl rfl)
    (fun _ _ _ _ _ _ _ _ _ => of_eq rfl rfl) (fun _ _ _ _ _ => of_eq rfl rfl))

theorem ringReturnCredit (env : Env) (ep : Ep) (p : Peer) :
    ep.Registers (rdsRingReturnCredit env ep p) := by
  obtain ⟨-, h⟩ | ⟨-, h⟩ := rdsRingReturnCredit_cases env ep p
  · rw [h]
    exact of_eq rfl rfl
  · rw [h]
    exact of_eq rfl rfl

/-! ### Sending -/

theorem sendEager (env : Env) (ep : Ep) (iov : List Iovec) (dest : SockAddr) (tag data : UInt64)
    (context : ℕ) (flags : UInt64) (tagged genComp : Bool) :
    ep.Registers (rdsSendEager env ep iov dest tag data context flags tagged genComp).1 :=
  rdsSendEager_elim (fun _ _ _ _ _ => of_eq rfl rfl) (of_eq rfl rfl)

/-- A request that does not go out gives back the registrations of its send. -/
theorem sendRts (env : Env) (ep : Ep) (p : Pending) (bytes : List UInt8) (dest : SockAddr)
    (destAddr : UInt64) : ep.Registers (rdsSendRts env ep p bytes dest destAddr).1 :=
  rdsSendRts_elim (fun e _ h => (ringSend h).trans (release e p.cached p.mrs))
    (fun e _ h => ((ringSend h).trans (release e p.cached p.mrs)).trans (of_eq rfl rfl))
    (fun _ h => (ringSend h).trans (of_eq rfl rfl))
    (fun _ h => (ringSend h).trans (of_eq rfl rfl))

/-- A rendezvous send registers its source, and releases it again if it fails. -/
theorem sendRndzv (env : Env) (ep : Ep) (iov : List Iovec) (dest : SockAddr) (tag data : UInt64)
    (context : ℕ) (flags : UInt64) (tagged genComp : Bool) (destAddr : UInt64) :
    ep.Registers
      (rdsSendRndzv env ep iov dest tag data context flags tagged genComp destAddr).1 := by
  have hchunks {dom segs mrs err} (h : rdsRegChunks env ep.cfg.sock ep.domain.cacheEnabled
      (chunksOf iov) ep.domain = (dom, segs, mrs, err)) : ep.domain.Moves ep.cfg.sock dom := by
    rw [show dom = _ from (congrArg Prod.fst h).symm]
    exact .regChunks env ep.domain.cacheEnabled (chunksOf iov) ep.domain
  refine rdsSendRndzv_elim (fun _ _ => of_eq rfl rfl)
    (fun t dom _ mrs _ _ h => ⟨rfl, (hchunks h).trans (Domain.Moves.unregChunks _ _ _)⟩)
    (fun dom segs mrs h _ _ _ => ?_)
  have hopen : ep.Registers { ep with
      tick := ep.tick + 3, domain := dom, opId := succId ep.opId
      idsGiven := ep.idsGiven + 1 } := ⟨rfl, hchunks h⟩
  exact hopen.trans (sendRts env _ _ _ dest destAddr)

/-- **A send** registers a new peer, or a long source. -/
theorem genericSend (env : Env) (ep : Ep) (iov : List Iovec) (destAddr tag data : UInt64)
    (context : ℕ) (flags : UInt64) (tagged : Bool) :
    ep.Registers (rdsGenericSend env ep iov destAddr tag data context flags tagged).1 :=
  rdsGenericSend_elim (fun _ => refl ep) (fun _ _ _ _ _ _ _ _ h _ => ringSend h)
    (fun dest _ e _ _ _ _ h => (ringSend h).trans
      (sendEager env e iov dest tag data context flags tagged _))
    (fun dest _ _ _ _ _ _ => sendRndzv env ep iov dest tag data context flags tagged _ destAddr)

theorem genericInject (env : Env) (ep : Ep) (buf len : ℕ) (destAddr tag : UInt64) (tagged : Bool) :
    ep.Registers (rdsGenericInject env ep buf len destAddr tag tagged).1 :=
  rdsGenericInject_elim (fun _ => refl ep) (refl ep) (fun _ _ _ _ _ h _ => ringSend h)
    (fun dest e _ _ h => (ringSend h).trans (sendEager env e _ dest tag 0 0 0 tagged false))

/-! ### Receiving -/

/-- **A send that is done** gives its registrations back. -/
theorem complete (ep : Ep) (p : Pending) : ep.Registers (rdsPendingComplete ep p) := by
  rw [rdsPendingComplete_eq]
  exact ⟨rfl, Domain.Moves.unregChunks p.cached ep.domain p.mrs⟩

theorem handleRdmaNotify (env : Env) (ep : Ep) (token : UInt64) (status : ℤ) :
    ep.Registers (rdsHandleRdmaNotify env ep token status) := by
  have hlog (p : Pending) : ep.Registers { ep with trace := ep.trace ++ p.acks status } :=
    of_eq rfl rfl
  refine rdsHandleRdmaNotify_elim (refl ep) (fun p n _ _ => of_eq rfl rfl) (fun p _ _ => ?_)
    (fun p _ _ => ?_)
  · exact (hlog p).trans (complete _ _)
  · exact (hlog p).trans ((of_inward (.finalize env _ _)).trans (of_eq rfl rfl))

/-- A `FIN` gives back, a handshake may register, and a message does neither. -/
theorem handleInbound (env : Env) (ep : Ep) (hdr : Hdr) (payload : List UInt8) (src : SockAddr)
    (srcFi : UInt64) : ep.Registers (rdsHandleInbound env ep hdr payload src srcFi) := by
  exact rdsHandleInbound_elim (refl ep) (fun p _ _ => complete ep p)
    (fun _ _ => ringHandleCtrl env ep hdr payload srcFi)
    (fun _ _ => of_inward (.handleMessage env ep _))

theorem ringDeliver (env : Env) (ep : Ep) (sa : SockAddr) (addr : UInt64) (slot : RingSlot) :
    ep.Registers (rdsRingDeliver env ep sa addr slot) := by
  exact rdsRingDeliver_elim (refl ep) (fun hdr payload => handleInbound env ep hdr payload sa addr)

/-- A slot is delivered like a datagram. -/
theorem ringPollSlot (env : Env) (ep : Ep) (addr : UInt64) :
    ep.Registers ((rdsRingPollSlot env ep addr).getD ep) := by
  obtain ⟨hnone, -⟩ | ⟨p, slot, e, -, -, he, hlast⟩ := rdsRingPollSlot_cases env ep addr
  · rw [hnone]
    exact refl ep
  rw [he]
  have hdeliver := (setPeer ep (p.absorbAck slot.ack)).trans (ringDeliver env _ p.sa p.addr slot)
  obtain rfl | ⟨q, -, rfl | rfl⟩ := hlast
  · exact hdeliver
  · exact hdeliver.trans (setPeer _ _)
  · exact (hdeliver.trans (setPeer _ _)).trans (ringReturnCredit env _ _)

theorem ringFlushCredit (env : Env) (ep : Ep) (addr : UInt64) :
    ep.Registers (rdsRingFlushCredit env ep addr) := by
  exact rdsRingFlushCredit_elim (refl ep) (fun p _ => ringReturnCredit env ep p)

/-- **Every action of an endpoint** treats its domain as endpoints do: any but a change
of the domain by others, and a retry while parked reads name operations that hold
nothing. -/
theorem act {ep : Ep} {a : EpAct} (hown : ∀ dom, a ≠ .shareDomain dom)
    (hidle : ∀ env, a = .retry env → ep.ReadsIdle) : ep.Registers (ep.act a) := by
  cases a with
  | send env iov destAddr tag data context flags tagged =>
    exact genericSend env ep iov destAddr tag data context flags tagged
  | inject env buf len destAddr tag tagged => exact genericInject env ep buf len destAddr tag tagged
  | postRecv env iov addr tag ignore context flags tagged =>
    exact of_inward (.postRecv env ep iov addr tag ignore context flags tagged)
  | cancel context => exact of_inward (.cancel ep context)
  | rma env iov remoteFi remoteOff key isWrite context flags =>
    exact of_inward (.startsRma
      (rdsRmaCommon_starts env ep iov remoteFi remoteOff key isWrite context flags))
  | injectWrite env buf len destAddr addr key =>
    exact of_inward (.startsRma (rdsInjectWrite_starts env ep buf len destAddr addr key))
  | recv env src bytes =>
    exact rdsRecvDgram_elim (motive := ep.Registers) (refl ep) (handleInbound env ep _ _ src _)
  | notify env op status =>
    have herase : ep.Registers { ep with inflight := ep.inflight.erase op } := of_eq rfl rfl
    exact herase.trans (handleRdmaNotify env _ op.token status)
  | retry env => exact of_inward (.progressDeferred env (hidle env rfl))
  | poll env addr => exact ringPollSlot env ep addr
  | flush env addr => exact ringFlushCredit env ep addr
  | landSlot addr idx slot => exact of_eq rfl rfl
  | landCredit addr value => exact of_eq rfl rfl
  | shareDomain dom => exact absurd rfl (hown dom)

end Ep.Registers
