import RdsProv.FreedCookies
import RdsProv.Lending
import RdsProv.Host

/-!
# Registrations of closed endpoints

Closing an RDS socket destroys what was registered through it, so a registration is
good for as long as the endpoint is open whose socket it was made through. A host is
*tenable* if that is so for all its registrations, and if registration is possible as
long as there is an enabled endpoint.

`rds_ep_close` gives back what the endpoint itself holds. It does not look at what
others hold on its socket: the windows of the application and the entries of the cache
are registered through the endpoint the domain borrows from, and stay behind when that
one is closed. Nor does it choose another endpoint to borrow from. Hence a host stays
tenable exactly as long as every endpoint that is closed leaves nothing behind
(`Host.ClosesClean`).
-/

namespace Host

/-! ## Tenable hosts -/

/-- The sockets of the open endpoints, and whether those are enabled. -/
def seats (h : Host) : List (ℕ × Bool) := h.eps.map fun e => (e.ep.cfg.sock, e.enabled)

/-- The endpoint with a socket is open. -/
def IsOpen (h : Host) (s : ℕ) : Prop := ∃ b, (s, b) ∈ h.seats

/-- The endpoint with a socket is open and enabled. -/
def IsEnabled (h : Host) (s : ℕ) : Prop := (s, true) ∈ h.seats

/-- **Live registrations belong to live endpoints**, and an enabled endpoint is borrowed
from if there is one. -/
structure Tenable (h : Host) : Prop where
  mrs : ∀ m ∈ h.dom.mrs, h.IsOpen m.sock
  entries : ∀ x ∈ h.dom.cache.entries, ∃ s, sockOf h.dom.kcalls x.cookie = some s ∧ h.IsOpen s
  regEp : (∃ s, h.IsEnabled s) → ∃ s, h.dom.regEp = some s ∧ h.IsEnabled s

/-- **Closing an endpoint leaves nothing behind**: what is registered through its socket
is held by nobody else, the cache will not keep it, and if the domain borrows from this
endpoint no other is enabled. -/
structure ClosesClean (h : Host) (e : HostEp) : Prop where
  mrs : ∀ m ∈ h.dom.mrs, m.sock = e.ep.cfg.sock → m.ref = e.ep.plainHeld.count m.handle
  entries : ∀ x ∈ h.dom.cache.entries, sockOf h.dom.kcalls x.cookie = some e.ep.cfg.sock →
    x.inTree = false ∧ x.useCnt ≠ 0 ∧ x.useCnt = e.ep.cachedHeld.count x.handle
  regEp : h.dom.regEp = some e.ep.cfg.sock → ∀ s, h.IsEnabled s → s = e.ep.cfg.sock

/-- An endpoint is only closed when it leaves nothing behind. -/
def Careful (h : Host) : HostAct → Prop
  | .close sock => ∀ e, h.find sock = some e → h.ClosesClean e
  | .openEp _ | .enable _ | .ep .. | .mrReg .. | .mrClose _ | .invalidate _ | .evict _ => True

/-- **What every run keeps**, careful or not: sockets are not shared, and the domain
borrows from an endpoint that is open and enabled. -/
structure Seated (h : Host) : Prop where
  kept : h.Kept
  apart : (h.seats.map Prod.fst).Nodup
  opened : ∀ s, h.IsOpen s → s ∈ h.opened
  lender : ∀ s, h.dom.regEp = some s → h.IsEnabled s

end Host

/-! ## What the cache keeps when references are given back -/

/-- Giving back a plain registration does not concern the cache. -/
theorem rdsMrPut_cache (dom : Domain) (x : ℕ) : (rdsMrPut dom x).cache = dom.cache := by
  unfold rdsMrPut
  split
  · rfl
  split
  · rfl
  · rfl

/-- Freeing an entry removes it. -/
theorem utilMrFreeEntry_entries (dom : Domain) (x : ℕ) :
    (utilMrFreeEntry dom x).cache.entries = dom.cache.entries.filter (·.handle != x) := by
  unfold utilMrFreeEntry
  cases hfind : dom.cache.entries.find? (·.handle == x) with
  | none =>
    refine (List.filter_eq_self.mpr (fun y hy => ?_)).symm
    simpa using List.find?_eq_none.mp hfind y hy
  | some e =>
    dsimp only
    have hcache : (rdsCacheDeleteRegion dom e.cookie).cache = dom.cache := by
      unfold rdsCacheDeleteRegion
      split <;> rfl
    rw [hcache]

/-- **Giving back a use of an entry** lowers its count, and removes it if that was the
last use and the tree does not have it. -/
theorem ofiMrCacheDelete_entries (dom : Domain) (x : ℕ) :
    (∀ y ∈ dom.cache.entries, y.handle ≠ x)
        ∧ (ofiMrCacheDelete dom x).cache.entries = dom.cache.entries
      ∨ ∃ e ∈ dom.cache.entries, e.handle = x
        ∧ (ofiMrCacheDelete dom x).cache.entries
          = if e.useCnt - 1 = 0 ∧ e.inTree = false then
              dom.cache.entries.filter (·.handle != x)
            else dom.cache.entries.map (fun y =>
              if y.handle = x then { y with useCnt := y.useCnt - 1 } else y) := by
  unfold ofiMrCacheDelete
  cases hfind : dom.cache.entries.find? (·.handle == x) with
  | none => exact .inl ⟨fun y hy => by simpa using List.find?_eq_none.mp hfind y hy, rfl⟩
  | some e =>
    refine .inr ⟨e, List.mem_of_find?_eq_some hfind, by simpa using List.find?_some hfind, ?_⟩
    dsimp only
    by_cases hlast : e.useCnt - 1 = 0
    · rw [if_neg (not_not.mpr hlast)]
      cases htree : e.inTree with
      | true => simp [MrCache.modify]
      | false =>
        rw [if_neg Bool.false_ne_true, if_pos ⟨hlast, rfl⟩, utilMrFreeEntry_entries]
        -- lowering the count of what is removed makes no difference
        show (dom.cache.entries.map _).filter _ = _
        rw [List.filter_map]
        have hsame : (dom.cache.entries.filter ((·.handle != x) ∘ fun y : CacheEntry =>
            if y.handle = x then { y with useCnt := y.useCnt - 1 } else y))
            = dom.cache.entries.filter (·.handle != x) := by
          refine List.filter_congr (fun y _ => ?_)
          dsimp only [Function.comp_apply]
          split <;> rfl
        rw [hsame]
        conv_rhs => rw [← List.map_id (dom.cache.entries.filter (·.handle != x))]
        refine List.map_congr_left (fun y hy => ?_)
        rw [if_neg (by simpa using (List.mem_filter.mp hy).2)]
        rfl
    · rw [if_pos hlast, if_neg (fun h => hlast h.1)]
      rfl

/-- The entries of a handle are out of the tree and wait for their last `n` users. -/
def Domain.Awaits (dom : Domain) (x n : ℕ) : Prop :=
  ∀ y ∈ dom.cache.entries, y.handle = x → y.inTree = false ∧ y.useCnt = n ∧ 0 < n

/-- There is an entry of a handle; if `b`, it is in the tree. -/
def Domain.Retains (dom : Domain) (x : ℕ) (b : Prop) : Prop :=
  (∃ y ∈ dom.cache.entries, y.handle = x)
    ∧ (b → ∀ y ∈ dom.cache.entries, y.handle = x → y.inTree = true)

namespace Domain.Awaits

variable {dom : Domain} {x n : ℕ}

theorem of_cache {dom' : Domain} (h : dom.Awaits x n) (hcache : dom'.cache = dom.cache) :
    dom'.Awaits x n := by
  unfold Domain.Awaits
  rw [hcache]
  exact h

theorem put_self (h : dom.Awaits x (n + 1)) : (ofiMrCacheDelete dom x).Awaits x n := by
  obtain ⟨hnone, heq⟩ | ⟨e, he, hex, heq⟩ := ofiMrCacheDelete_entries dom x
  · intro y hy hyx
    rw [heq] at hy
    exact absurd hyx (hnone y hy)
  obtain ⟨hout, huse, -⟩ := h e he hex
  intro y hy hyx
  rw [heq] at hy
  obtain rfl | hpos := Nat.eq_zero_or_pos n
  · -- that was the last user
    rw [if_pos ⟨by rw [huse], hout⟩] at hy
    exact absurd hyx (by simpa using (List.mem_filter.mp hy).2)
  · rw [if_neg (fun hc => by omega)] at hy
    obtain ⟨y₀, hy₀, rfl⟩ := List.mem_map.mp hy
    by_cases hy₀x : y₀.handle = x
    · rw [if_pos hy₀x]
      obtain ⟨hout₀, huse₀, -⟩ := h y₀ hy₀ hy₀x
      refine ⟨hout₀, ?_, hpos⟩
      show y₀.useCnt - 1 = n
      omega
    · rw [if_neg hy₀x] at hyx
      exact absurd hyx hy₀x

theorem put_of_ne (h : dom.Awaits x n) {z : ℕ} (hz : z ≠ x) :
    (ofiMrCacheDelete dom z).Awaits x n := by
  have hold : ∀ y ∈ (ofiMrCacheDelete dom z).cache.entries, y.handle = x →
      y ∈ dom.cache.entries := by
    intro y hy hyx
    obtain ⟨-, heq⟩ | ⟨e, -, -, heq⟩ := ofiMrCacheDelete_entries dom z
    · rw [heq] at hy
      exact hy
    rw [heq] at hy
    split at hy
    · exact (List.mem_filter.mp hy).1
    · obtain ⟨y₀, hy₀, rfl⟩ := List.mem_map.mp hy
      by_cases hy₀z : y₀.handle = z
      · rw [if_pos hy₀z] at hyx
        exact absurd (hy₀z.symm.trans hyx) hz
      · rw [if_neg hy₀z]
        exact hy₀
  exact fun y hy hyx => h y (hold y hy hyx) hyx

theorem unregChunks (isCached : Bool) (hs : List ℕ)
    (h : dom.Awaits x ((cachedPart isCached hs).count x + n)) :
    (rdsUnregChunks isCached dom hs).Awaits x n := by
  unfold rdsUnregChunks
  induction hs generalizing dom with
  | nil =>
    rw [cachedPart_nil, Multiset.count_zero, zero_add] at h
    exact h
  | cons z hs ih =>
    cases isCached with
    | false => exact ih (h.of_cache (rdsMrPut_cache dom z))
    | true =>
      refine ih ?_
      show (ofiMrCacheDelete dom z).Awaits x _
      rw [count_cachedPart, if_pos rfl, List.count_cons] at h
      rw [count_cachedPart, if_pos rfl]
      by_cases hz : z = x
      · rw [if_pos (by simpa using hz), add_right_comm] at h
        rw [hz]
        exact h.put_self
      · rw [if_neg (by simpa using hz)] at h
        exact h.put_of_ne hz

theorem ringCleanup (peers : List Peer) (h : dom.Awaits x n) :
    (rdsEpRingCleanup dom peers).Awaits x n := by
  unfold rdsEpRingCleanup
  induction peers generalizing dom with
  | nil => exact h
  | cons p peers ih =>
    refine ih (unregChunks false p.mrHandles ?_)
    rw [show cachedPart false p.mrHandles = 0 from rfl, Multiset.count_zero, zero_add]
    exact h

theorem flushLists (pending : List Pending)
    (h : dom.Awaits x ((cachedSum (pending.filterMap Pending.hold)).count x + n)) :
    (rdsEpFlushLists dom pending).Awaits x n := by
  unfold rdsEpFlushLists
  induction pending generalizing dom with
  | nil =>
    rw [List.filterMap_nil, show cachedSum [] = 0 from rfl, Multiset.count_zero, zero_add] at h
    exact h
  | cons p pending ih =>
    rw [(sums_hold_cons p pending).1, Multiset.count_add, add_assoc] at h
    exact ih (unregChunks p.cached p.mrs h)

/-- **An entry that waits for one endpoint only goes with it.** -/
theorem close {ep : Ep} (h : dom.Awaits x (ep.cachedHeld.count x)) :
    ∀ y ∈ (rdsEpClose dom ep).cache.entries, y.handle ≠ x := by
  have hreg : Domain.Awaits (if dom.regEp = some ep.cfg.sock then { dom with regEp := none }
      else dom) x (ep.cachedHeld.count x + 0) := by
    split
    · exact h
    · exact h
  have hflush := (hreg.ringCleanup ep.peers).flushLists ep.pending
  intro y hy hyx
  exact absurd (hflush y hy hyx).2.2 (Nat.lt_irrefl 0)

end Domain.Awaits

namespace Domain.Retains

variable {dom : Domain} {x : ℕ} {b : Prop}

theorem of_cache {dom' : Domain} (h : dom.Retains x b) (hcache : dom'.cache = dom.cache) :
    dom'.Retains x b := by
  unfold Domain.Retains
  rw [hcache]
  exact h

theorem put (h : dom.Retains x b) {z : ℕ} (hz : b ∨ z ≠ x) :
    (ofiMrCacheDelete dom z).Retains x b := by
  obtain ⟨⟨y, hy, hyx⟩, htree⟩ := h
  obtain ⟨-, heq⟩ | ⟨e, he, hez, heq⟩ := ofiMrCacheDelete_entries dom z
  · unfold Domain.Retains
    rw [heq]
    exact ⟨⟨y, hy, hyx⟩, htree⟩
  unfold Domain.Retains
  rw [heq]
  by_cases hlast : e.useCnt - 1 = 0 ∧ e.inTree = false
  · rw [if_pos hlast]
    -- what is removed is out of the tree, so it is another entry
    have hzx : z ≠ x := by
      obtain hb | hz := hz
      · rintro rfl
        rw [htree hb e he hez] at hlast
        cases hlast.2
      · exact hz
    refine ⟨⟨y, List.mem_filter.mpr ⟨hy, ?_⟩, hyx⟩, fun hb y hy => ?_⟩
    · rw [hyx]
      simpa using hzx.symm
    · exact htree hb y (List.mem_filter.mp hy).1
  · rw [if_neg hlast]
    refine ⟨⟨_, List.mem_map_of_mem hy, ?_⟩, fun hb y' hy' hyx' => ?_⟩
    · split
      · exact hyx
      · exact hyx
    · obtain ⟨y₀, hy₀, rfl⟩ := List.mem_map.mp hy'
      by_cases hy₀z : y₀.handle = z
      · rw [if_pos hy₀z] at hyx' ⊢
        exact htree hb y₀ hy₀ hyx'
      · rw [if_neg hy₀z] at hyx' ⊢
        exact htree hb y₀ hy₀ hyx'

theorem unregChunks (isCached : Bool) (hs : List ℕ) (h : dom.Retains x b)
    (hx : b ∨ x ∉ cachedPart isCached hs) : (rdsUnregChunks isCached dom hs).Retains x b := by
  unfold rdsUnregChunks
  induction hs generalizing dom with
  | nil => exact h
  | cons z hs ih =>
    have hx' : b ∨ x ∉ cachedPart isCached [z] ∧ x ∉ cachedPart isCached hs := by
      rw [cachedPart_cons, Multiset.mem_add, not_or] at hx
      exact hx
    cases isCached with
    | false => exact ih (h.of_cache (rdsMrPut_cache dom z)) (hx'.imp_right And.right)
    | true =>
      refine ih (h.put (hx'.imp_right fun hne => ?_)) (hx'.imp_right And.right)
      rintro rfl
      exact hne.1 (List.mem_singleton.mpr rfl)

theorem ringCleanup (peers : List Peer) (h : dom.Retains x b) :
    (rdsEpRingCleanup dom peers).Retains x b := by
  unfold rdsEpRingCleanup
  induction peers generalizing dom with
  | nil => exact h
  | cons p peers ih => exact ih (unregChunks false p.mrHandles h (.inr (Multiset.notMem_zero x)))

theorem flushLists (pending : List Pending) (h : dom.Retains x b)
    (hx : b ∨ x ∉ cachedSum (pending.filterMap Pending.hold)) :
    (rdsEpFlushLists dom pending).Retains x b := by
  unfold rdsEpFlushLists
  induction pending generalizing dom with
  | nil => exact h
  | cons p pending ih =>
    rw [(sums_hold_cons p pending).1, Multiset.mem_add, not_or] at hx
    exact ih (unregChunks p.cached p.mrs h (hx.imp_right And.left)) (hx.imp_right And.right)

/-- **An entry that is in the tree, or that the endpoint does not use, stays.** -/
theorem close {ep : Ep} (h : dom.Retains x b) (hx : b ∨ x ∉ ep.cachedHeld) :
    ∃ y ∈ (rdsEpClose dom ep).cache.entries, y.handle = x := by
  have hreg : Domain.Retains (if dom.regEp = some ep.cfg.sock then { dom with regEp := none }
      else dom) x b := by
    split
    · exact h
    · exact h
  exact ((hreg.ringCleanup ep.peers).flushLists ep.pending hx).1

end Domain.Retains

/-! ## What closing leaves behind -/

section Close

variable {dom : Domain} {ep : Ep} {cached plain : Multiset ℕ}

/-- Closing only forgets, apart from whom the domain borrows from. -/
theorem rdsEpClose_forgets (dom : Domain) (ep : Ep) :
    dom.Shrinks (rdsEpClose dom ep)
      ∧ Domain.Frees { dom with regEp := if dom.regEp = some ep.cfg.sock then none else dom.regEp }
        (rdsEpClose dom ep) := by
  have hstart : (if dom.regEp = some ep.cfg.sock then { dom with regEp := none } else dom)
      = { dom with regEp := if dom.regEp = some ep.cfg.sock then none else dom.regEp } := by
    split <;> rfl
  have hregEp (r : Option ℕ) : dom.Shrinks { dom with regEp := r } := .of_eq rfl rfl
  unfold rdsEpClose
  rw [hstart]
  constructor
  · exact ((hregEp _).trans (.foldl (fun d p => .unregChunks false d p.mrHandles) ep.peers _)).trans
      (.foldl (fun d p => .unregChunks p.cached d p.mrs) ep.pending _)
  · exact Domain.Frees.trans (.foldl (fun d p => .unregChunks false d p.mrHandles) ep.peers _)
      (.foldl (fun d p => .unregChunks p.cached d p.mrs) ep.pending _)

/-- **A registration survives exactly if someone else holds it.** -/
theorem rdsEpClose_mrs_iff
    (h : dom.Custody False (ep.cachedHeld + cached) (ep.plainHeld + plain)) {m : RdsMr}
    (hm : m ∈ dom.mrs) :
    (∃ m' ∈ (rdsEpClose dom ep).mrs, m'.handle = m.handle)
      ↔ m.ref ≠ ep.plainHeld.count m.handle := by
  have href := h.mrs.refs m hm
  rw [Multiset.count_add] at href
  have hleft : (∃ m' ∈ (rdsEpClose dom ep).mrs, m'.handle = m.handle) ↔ m.handle ∈ plain :=
    ⟨fun ⟨m', hm', heq⟩ => heq ▸ h.close.mrs.pos m' hm',
      fun hp => List.mem_map.mp (h.close.mrs.mem _ hp)⟩
  rw [hleft, ← Multiset.count_pos]
  omega

/-- **An entry survives exactly if it is in the tree, unused, or used by others.** -/
theorem rdsEpClose_entries_iff
    (h : dom.Custody False (ep.cachedHeld + cached) (ep.plainHeld + plain)) {x : CacheEntry}
    (hx : x ∈ dom.cache.entries) :
    (∃ x' ∈ (rdsEpClose dom ep).cache.entries, x'.handle = x.handle)
      ↔ ¬ (x.inTree = false ∧ x.useCnt ≠ 0 ∧ x.useCnt = ep.cachedHeld.count x.handle) := by
  have huses := h.cache.uses x hx
  rw [Multiset.count_add] at huses
  have hsame : ∀ y ∈ dom.cache.entries, y.handle = x.handle → y = x :=
    fun y hy heq => List.inj_on_of_nodup_map h.cache.nodup hy hx heq
  constructor
  · rintro ⟨x', hx', heq⟩ ⟨htree, hused, hown⟩
    have hwait : dom.Awaits x.handle (ep.cachedHeld.count x.handle) := by
      intro y hy hyx
      rw [hsame y hy hyx]
      exact ⟨htree, hown, by omega⟩
    exact hwait.close x' hx' heq
  · intro hkeep
    by_cases hothers : x.handle ∈ cached
    · exact List.mem_map.mp (h.close.cache.mem _ hothers)
    -- nobody else uses it: it is in the tree, or unused
    have hzero : cached.count x.handle = 0 := Multiset.count_eq_zero.mpr hothers
    refine Domain.Retains.close (b := x.inTree = true) ⟨⟨x, hx, rfl⟩, fun hb y hy hyx => ?_⟩ ?_
    · rw [hsame y hy hyx]
      exact hb
    · rw [or_iff_not_imp_left]
      intro htree
      have huse : x.useCnt = 0 := by
        by_contra hused
        exact hkeep ⟨Bool.eq_false_iff.mpr htree, hused, by omega⟩
      refine Multiset.count_eq_zero.mp ?_
      omega

end Close

/-- **Registration by the application** is through the borrowed socket. -/
theorem Domain.Rooted.mrRegattr {up : ℕ → Prop} {lender : Option ℕ} {dom : Domain} (env : Env)
    (h : dom.Rooted up lender) (r : Region) : (rdsMrRegattr env dom r).1.Rooted up lender := by
  unfold rdsMrRegattr
  split
  · exact h
  · rename_i sock hregEp
    have hint := h.regInternal env (h.lenderUp sock (h.lends.symm.trans hregEp)) r
    split
    · rename_i d e heq
      rw [heq] at hint
      exact hint
    · rename_i d mr heq
      rw [heq] at hint
      exact hint

/-! ## Closing an endpoint -/

namespace Host

variable {h : Host}

theorem Seated.rooted (hs : h.Seated) (ht : h.Tenable) : h.dom.Rooted h.IsOpen h.dom.regEp where
  lends := rfl
  lenderUp s hreg := ⟨true, hs.lender s hreg⟩
  mrs := ht.mrs
  entries := ht.entries
  below := hs.kept.custody.cache.below

/-- The host once an endpoint is closed. -/
theorem act_close {sock : ℕ} {e : HostEp} (hfind : h.find sock = some e) :
    h.act (.close sock) = { h with
      dom := rdsEpClose h.dom e.ep, eps := h.eps.eraseP (·.ep.cfg.sock == sock) } := by
  rw [Host.act, hfind]

/-- **One seat is given up**, and no other endpoint has its socket. -/
theorem Seated.seats_close (hs : h.Seated) {sock : ℕ} {e : HostEp}
    (hfind : h.find sock = some e) (s : ℕ) (b : Bool) :
    (s, b) ∈ (h.act (.close sock)).seats ↔ (s, b) ∈ h.seats ∧ s ≠ sock := by
  obtain ⟨l₁, l₂, heps, hsock, herase, -⟩ := find_split hfind
  have hnodup : (h.eps.map (·.ep.cfg.sock)).Nodup := by
    have := hs.apart
    unfold seats at this
    rwa [List.map_map] at this
  rw [heps, List.map_append, List.map_cons, List.nodup_middle, List.nodup_cons] at hnodup
  have hother : ∀ x ∈ l₁ ++ l₂, x.ep.cfg.sock ≠ sock := by
    intro x hx heq
    refine hnodup.1 ?_
    rw [hsock, ← heq, ← List.map_append]
    exact List.mem_map_of_mem hx
  rw [act_close hfind]
  unfold seats
  rw [herase, heps]
  constructor
  · intro hmem
    obtain ⟨x, hx, heq⟩ := List.mem_map.mp hmem
    cases heq
    refine ⟨List.mem_map_of_mem ?_, hother x hx⟩
    rw [List.mem_append, List.mem_cons]
    exact (List.mem_append.mp hx).imp_right .inr
  · rintro ⟨hmem, hne⟩
    obtain ⟨x, hx, heq⟩ := List.mem_map.mp hmem
    cases heq
    rw [List.mem_append, List.mem_cons] at hx
    refine List.mem_map_of_mem (List.mem_append.mpr (hx.imp_right fun hx => ?_))
    obtain rfl | hx := hx
    · exact absurd hsock hne
    · exact hx

theorem Seated.isOpen_close (hs : h.Seated) {sock : ℕ} {e : HostEp}
    (hfind : h.find sock = some e) (s : ℕ) :
    (h.act (.close sock)).IsOpen s ↔ h.IsOpen s ∧ s ≠ sock := by
  constructor
  · rintro ⟨b, hb⟩
    obtain ⟨hb, hne⟩ := (hs.seats_close hfind s b).mp hb
    exact ⟨⟨b, hb⟩, hne⟩
  · rintro ⟨⟨b, hb⟩, hne⟩
    exact ⟨b, (hs.seats_close hfind s b).mpr ⟨hb, hne⟩⟩

/-- **A host stays tenable exactly if the endpoint leaves nothing behind.** -/
theorem Seated.tenable_close_iff (hs : h.Seated) (ht : h.Tenable) {sock : ℕ} {e : HostEp}
    (hfind : h.find sock = some e) : (h.act (.close sock)).Tenable ↔ h.ClosesClean e := by
  obtain ⟨l₁, l₂, heps, hsock, -⟩ := find_split hfind
  have hopen := hs.isOpen_close hfind
  have henabled (s : ℕ) : (h.act (.close sock)).IsEnabled s ↔ h.IsEnabled s ∧ s ≠ sock :=
    hs.seats_close hfind s true
  have hdom : (h.act (.close sock)).dom = rdsEpClose h.dom e.ep := by rw [act_close hfind]
  obtain ⟨hshrinks, hfrees⟩ := rdsEpClose_forgets h.dom e.ep
  have hcust := hs.kept.custody
  rw [(sums_split heps).1, (sums_split heps).2] at hcust
  have hold : ∀ x' ∈ (rdsEpClose h.dom e.ep).cache.entries,
      ∃ x ∈ h.dom.cache.entries, x.core = x'.core :=
    fun x' hx' => List.mem_map.mp (hshrinks.entries.subset (List.mem_map_of_mem hx'))
  have hcalls (c : UInt64) : sockOf (rdsEpClose h.dom e.ep).kcalls c = sockOf h.dom.kcalls c :=
    hfrees.sockOf_eq c
  have hregEp : (rdsEpClose h.dom e.ep).regEp
      = if h.dom.regEp = some e.ep.cfg.sock then none else h.dom.regEp := hfrees.regEp
  rw [hsock] at hregEp
  constructor
  · intro ht'
    refine ⟨fun m hm hmsock => ?_, fun x hx hxsock => ?_, fun hreg s hsen => ?_⟩
    · by_contra hne
      obtain ⟨m', hm', heq⟩ := (rdsEpClose_mrs_iff hcust hm).mpr hne
      obtain ⟨m₀, hm₀, hhandle, hm₀sock⟩ := hfrees.mrs m' hm'
      have hsame : m₀ = m :=
        List.inj_on_of_nodup_map hcust.mrs.nodup hm₀ hm (hhandle.trans heq)
      refine ((hopen m'.sock).mp (ht'.mrs m' (hdom ▸ hm'))).2 ?_
      rw [← hm₀sock, hsame, hmsock, hsock]
    · by_contra hne
      obtain ⟨x', hx', heq⟩ := (rdsEpClose_entries_iff hcust hx).mpr hne
      obtain ⟨x₀, hx₀, hcore⟩ := hold x' hx'
      have hsame : x₀ = x := List.inj_on_of_nodup_map hcust.cache.nodup hx₀ hx
        ((congrArg (·.1) hcore).trans heq)
      obtain ⟨s, hs', hsopen⟩ := ht'.entries x' (hdom ▸ hx')
      rw [hdom, hcalls, ← show x₀.cookie = x'.cookie from congrArg (·.2.2) hcore, hsame, hxsock]
        at hs'
      cases hs'
      exact ((hopen _).mp hsopen).2 hsock
    · rw [hsock] at hreg ⊢
      by_contra hne
      obtain ⟨s', hs', -⟩ := ht'.regEp ⟨s, (henabled s).mpr ⟨hsen, hne⟩⟩
      rw [hdom, hregEp, if_pos hreg] at hs'
      cases hs'
  · intro hclean
    refine ⟨fun m' hm' => ?_, fun x' hx' => ?_, fun hen => ?_⟩
    · rw [hdom] at hm'
      obtain ⟨m, hm, hhandle, hmsock⟩ := hfrees.mrs m' hm'
      rw [← hmsock]
      refine (hopen _).mpr ⟨ht.mrs m hm, fun heq => ?_⟩
      exact (rdsEpClose_mrs_iff hcust hm).mp ⟨m', hm', hhandle.symm⟩
        (hclean.mrs m hm (heq.trans hsock.symm))
    · rw [hdom] at hx' ⊢
      obtain ⟨x, hx, hcore⟩ := hold x' hx'
      obtain ⟨s, hxs, hsopen⟩ := ht.entries x hx
      rw [hcalls, ← show x.cookie = x'.cookie from congrArg (·.2.2) hcore]
      refine ⟨s, hxs, (hopen s).mpr ⟨hsopen, fun heq => ?_⟩⟩
      rw [heq, ← hsock] at hxs
      exact (rdsEpClose_entries_iff hcust hx).mp
        ⟨x', hx', (congrArg (·.1) hcore).symm⟩ (hclean.entries x hx hxs)
    · obtain ⟨s, hs'⟩ := hen
      obtain ⟨hsen, hne⟩ := (henabled s).mp hs'
      obtain ⟨r, hr, hren⟩ := ht.regEp ⟨s, hsen⟩
      have hrne : r ≠ sock := by
        rintro rfl
        exact hne ((hclean.regEp (hsock ▸ hr) s hsen).trans hsock)
      refine ⟨r, ?_, (henabled r).mpr ⟨hren, hrne⟩⟩
      rw [hdom, hregEp, if_neg (fun hc => hrne (Option.some.inj (hr.symm.trans hc)))]
      exact hr

/-! ## The other actions -/

/-- The host after an action of an endpoint: nobody comes or goes, and the domain is
treated as endpoints treat it. -/
theorem Seated.ep_spec (hs : h.Seated) {sock : ℕ} {a : EpAct} (hadm : h.Admits (.ep sock a)) :
    (h.act (.ep sock a)).seats = h.seats ∧ h.IsOpen sock
      ∧ (h.act (.ep sock a)).opened = h.opened
      ∧ h.dom.Moves sock (h.act (.ep sock a)).dom := by
  obtain ⟨e, hfind, -, hown, hids⟩ := hadm
  obtain ⟨l₁, l₂, heps, hsock, -, hupd⟩ := find_split hfind
  have he : e ∈ h.eps := by
    rw [heps]
    exact List.mem_append_right _ List.mem_cons_self
  have hm : (e.on h.dom).Metered := (hs.kept.metered e he).congr rfl rfl rfl
  have hreg : (e.on h.dom).Registers ((e.on h.dom).act a) := .act hown (fun env henv =>
    (sound_on (hs.kept.sound e he (hids env henv)) h.dom).readsIdle hm)
  have hcfg : ((e.on h.dom).act a).cfg = e.ep.cfg := hreg.cfg
  have hact : h.act (.ep sock a) = { h with
      dom := ((e.on h.dom).act a).domain
      eps := h.update sock { e with ep := (e.on h.dom).act a } } := by
    rw [Host.act, hfind]
  rw [hact]
  refine ⟨?_, ⟨e.enabled, ?_⟩, rfl, hsock ▸ hreg.moves⟩
  · unfold seats
    rw [hupd, heps, List.map_append, List.map_append, List.map_cons, List.map_cons, hcfg]
  · rw [← hsock]
    exact List.mem_map_of_mem he

/-- A host with the same seats and a domain that is rooted in them. -/
theorem Tenable.congr (ht : h.Tenable) {h' : Host} (hseats : h'.seats = h.seats)
    (hroot : h'.dom.Rooted h.IsOpen h.dom.regEp) : h'.Tenable := by
  have hopen (s : ℕ) : h'.IsOpen s ↔ h.IsOpen s := by
    unfold IsOpen
    rw [hseats]
  refine ⟨fun m hm => (hopen _).mpr (hroot.mrs m hm), fun x hx => ?_, fun hen => ?_⟩
  · obtain ⟨s, hxs, hsopen⟩ := hroot.entries x hx
    exact ⟨s, hxs, (hopen s).mpr hsopen⟩
  · unfold IsEnabled at hen ⊢
    rw [hseats] at hen ⊢
    rw [hroot.lends]
    exact ht.regEp hen

/-- The host after the application registers a window. -/
theorem mrReg_spec (h : Host) (env : Env) (r : Region) :
    (h.act (.mrReg env r)).eps = h.eps ∧ (h.act (.mrReg env r)).opened = h.opened
      ∧ (h.act (.mrReg env r)).dom = (rdsMrRegattr env h.dom r).1 := by
  rw [Host.act]
  split
  · rename_i d e heq
    rw [heq]
    exact ⟨rfl, rfl, rfl⟩
  · rename_i d mr heq
    rw [heq]
    exact ⟨rfl, rfl, rfl⟩

/-- **One seat is marked as enabled.** -/
theorem enable_spec {sock : ℕ} {e : HostEp} (hfind : h.find sock = some e) :
    (h.act (.enable sock)).dom = rdsEpEnable h.dom sock
      ∧ (h.act (.enable sock)).opened = h.opened
      ∧ (h.act (.enable sock)).seats.map Prod.fst = h.seats.map Prod.fst
      ∧ (∀ s, (h.act (.enable sock)).IsOpen s ↔ h.IsOpen s)
      ∧ ∀ s, (h.act (.enable sock)).IsEnabled s ↔ h.IsEnabled s ∨ s = sock := by
  obtain ⟨l₁, l₂, heps, hsock, -, hupd⟩ := find_split hfind
  have hact : h.act (.enable sock) = { h with
      dom := rdsEpEnable h.dom sock, eps := h.update sock { e with enabled := true } } := by
    rw [Host.act, hfind]
  have heps' : (h.act (.enable sock)).eps = l₁ ++ { e with enabled := true } :: l₂ := by
    rw [hact, ← hupd]
  refine ⟨by rw [hact], by rw [hact], ?_, fun s => ?_, fun s => ?_⟩
  · unfold seats
    rw [heps', heps, List.map_append, List.map_append]
    simp only [List.map_append, List.map_cons]
  · unfold IsOpen seats
    rw [heps', heps]
    simp only [List.map_append, List.map_cons, List.mem_append, List.mem_cons, Prod.mk.injEq,
      exists_or, exists_and_left, exists_eq, and_true]
  · unfold IsEnabled seats
    rw [heps', heps]
    simp only [List.map_append, List.map_cons, List.mem_append, List.mem_cons, Prod.mk.injEq,
      and_true, hsock]
    constructor
    · rintro (hl | rfl | hr)
      · exact .inl (.inl hl)
      · exact .inr rfl
      · exact .inl (.inr (.inr hr))
    · rintro ((hl | ⟨rfl, -⟩ | hr) | rfl)
      · exact .inl hl
      · exact .inr (.inl rfl)
      · exact .inr (.inr hr)
      · exact .inr (.inl rfl)

/-- The domain borrows from the endpoint that is enabled, unless it does so already. -/
theorem Seated.lender_enable (hs : h.Seated) {sock : ℕ} {e : HostEp}
    (hfind : h.find sock = some e) :
    ∃ s, (h.act (.enable sock)).dom.regEp = some s ∧ (h.act (.enable sock)).IsEnabled s := by
  obtain ⟨hdom, -, -, -, henabled⟩ := enable_spec hfind
  rw [hdom]
  unfold rdsEpEnable
  dsimp only
  cases hregEp : h.dom.regEp with
  | none => exact ⟨sock, if_pos rfl, (henabled sock).mpr (.inr rfl)⟩
  | some s =>
    exact ⟨s, if_neg (Option.some_ne_none s), (henabled s).mpr (.inl (hs.lender s hregEp))⟩

/-- **Any action but a close leaves a host tenable.** -/
theorem Seated.tenable_act (hs : h.Seated) (ht : h.Tenable) {a : HostAct} (hadm : h.Admits a)
    (ha : ∀ sock, a ≠ .close sock) : (h.act a).Tenable := by
  have hroot := hs.rooted ht
  cases a with
  | openEp cfg =>
    have hseats : (h.act (.openEp cfg)).seats = h.seats ++ [(cfg.sock, false)] := by
      unfold seats Host.act
      rw [List.map_append]
      rfl
    have hmono : ∀ s, h.IsOpen s → (h.act (.openEp cfg)).IsOpen s := by
      rintro s ⟨b, hb⟩
      refine ⟨b, ?_⟩
      rw [hseats]
      exact List.mem_append_left _ hb
    have henabled (s : ℕ) : (h.act (.openEp cfg)).IsEnabled s ↔ h.IsEnabled s := by
      unfold IsEnabled
      rw [hseats]
      simp
    refine ⟨fun m hm => hmono _ (ht.mrs m hm), fun x hx => ?_, fun hen => ?_⟩
    · obtain ⟨s, hxs, hsopen⟩ := ht.entries x hx
      exact ⟨s, hxs, hmono s hsopen⟩
    · obtain ⟨s, hs'⟩ := hen
      obtain ⟨r, hr, hren⟩ := ht.regEp ⟨s, (henabled s).mp hs'⟩
      exact ⟨r, hr, (henabled r).mpr hren⟩
  | enable sock =>
    cases hfind : h.find sock with
    | none =>
      rw [Host.act, hfind]
      exact ht
    | some e =>
      obtain ⟨hdom, -, -, hopen, -⟩ := enable_spec hfind
      have hlender := hs.lender_enable hfind
      refine ⟨fun m hm => (hopen _).mpr (ht.mrs m ?_), fun x hx => ?_, fun _ => hlender⟩
      · rw [hdom] at hm
        exact hm
      · rw [hdom] at hx ⊢
        obtain ⟨s, hxs, hsopen⟩ := ht.entries x hx
        exact ⟨s, hxs, (hopen s).mpr hsopen⟩
  | close sock => exact absurd rfl (ha sock)
  | ep sock a =>
    obtain ⟨hseats, hup, -, hmoves⟩ := hs.ep_spec hadm
    exact ht.congr hseats (hroot.moves hup hmoves)
  | mrReg env r =>
    obtain ⟨heps, -, hdom⟩ := mrReg_spec h env r
    refine ht.congr (by rw [seats, heps, seats]) ?_
    rw [hdom]
    exact hroot.mrRegattr env r
  | mrClose x => exact ht.congr rfl (hroot.shed (.mrPut _ x) (.mrPut _ x))
  | invalidate r => exact ht.congr rfl (hroot.shed (.foldl_uncache _ _) (.cache _ _))
  | evict flushLru => exact ht.congr rfl (hroot.shed (.flush _ flushLru) (.flush _ flushLru))

/-- An action after which the seats are the same and the domain borrows as before. -/
theorem Seated.congr (hs : h.Seated) {h' : Host} (hkept : h'.Kept) (hseats : h'.seats = h.seats)
    (hopened : h'.opened = h.opened) (hregEp : h'.dom.regEp = h.dom.regEp) : h'.Seated where
  kept := hkept
  apart := hseats ▸ hs.apart
  opened s hopen := by
    unfold IsOpen at hopen
    rw [hseats] at hopen
    exact hopened ▸ hs.opened s hopen
  lender s hreg := by
    unfold IsEnabled
    rw [hseats]
    exact hs.lender s (hregEp ▸ hreg)

theorem Seated.openEp (hs : h.Seated) {cfg : EpCfg} (hadm : h.Admits (.openEp cfg)) :
    (h.act (.openEp cfg)).Seated := by
  have hseats : (h.act (.openEp cfg)).seats = h.seats ++ [(cfg.sock, false)] := by
    unfold seats Host.act
    rw [List.map_append]
    rfl
  refine ⟨hs.kept.act hadm, ?_, fun s hopen => ?_, fun s hreg => ?_⟩
  · rw [hseats, List.map_append, List.map_singleton, ← List.concat_eq_append, List.nodup_concat]
    refine ⟨fun hmem => ?_, hs.apart⟩
    obtain ⟨⟨s, b⟩, hsb, hsock⟩ := List.mem_map.mp hmem
    have hopened := hs.opened s ⟨b, hsb⟩
    rw [show s = cfg.sock from hsock] at hopened
    exact hadm.1 hopened
  · obtain ⟨b, hb⟩ := hopen
    rw [hseats] at hb
    obtain hb | hb := List.mem_append.mp hb
    · exact List.mem_append_left _ (hs.opened s ⟨b, hb⟩)
    · cases List.mem_singleton.mp hb
      exact List.mem_append_right _ (List.mem_singleton.mpr rfl)
  · unfold IsEnabled
    rw [hseats]
    exact List.mem_append_left _ (hs.lender s hreg)

theorem Seated.enable (hs : h.Seated) (sock : ℕ) : (h.act (.enable sock)).Seated := by
  have hkept := hs.kept.enable sock
  cases hfind : h.find sock with
  | none =>
    rw [Host.act, hfind]
    exact hs
  | some e =>
    obtain ⟨-, hopened, hsocks, hopen, -⟩ := enable_spec hfind
    obtain ⟨s, hreg, hen⟩ := hs.lender_enable hfind
    refine ⟨hkept, hsocks ▸ hs.apart, fun s hs' => ?_, fun s' hreg' => ?_⟩
    · rw [hopened]
      exact hs.opened s ((hopen s).mp hs')
    · rw [hreg] at hreg'
      cases hreg'
      exact hen

theorem Seated.close (hs : h.Seated) (sock : ℕ) : (h.act (.close sock)).Seated := by
  have hkept := hs.kept.close sock
  cases hfind : h.find sock with
  | none =>
    rw [Host.act, hfind]
    exact hs
  | some e =>
    obtain ⟨-, -, -, hsock, -⟩ := find_split hfind
    have hregEp : (h.act (.close sock)).dom.regEp
        = if h.dom.regEp = some e.ep.cfg.sock then none else h.dom.regEp := by
      rw [act_close hfind]
      exact (rdsEpClose_forgets h.dom e.ep).2.regEp
    refine ⟨hkept, ?_, fun s hopen => ?_, fun s hreg => ?_⟩
    · have hsub : (h.act (.close sock)).seats.Sublist h.seats := by
        rw [act_close hfind]
        exact List.eraseP_sublist.map _
      exact hs.apart.sublist (hsub.map _)
    · rw [act_close hfind]
      exact hs.opened s ((hs.isOpen_close hfind s).mp (act_close hfind ▸ hopen)).1
    · rw [hregEp, hsock] at hreg
      split at hreg
      · cases hreg
      · rename_i hne
        refine (hs.seats_close hfind s true).mpr ⟨hs.lender s hreg, ?_⟩
        rintro rfl
        exact hne hreg

/-- **Every action keeps the seats in order**, while the host is tenable. -/
theorem Seated.act (hs : h.Seated) (ht : h.Tenable) {a : HostAct} (hadm : h.Admits a) :
    (h.act a).Seated := by
  have hkept := hs.kept.act hadm
  have hroot := hs.rooted ht
  cases a with
  | openEp cfg => exact hs.openEp hadm
  | enable sock => exact hs.enable sock
  | close sock => exact hs.close sock
  | ep sock a =>
    obtain ⟨hseats, hup, hopened, hmoves⟩ := hs.ep_spec hadm
    exact hs.congr hkept hseats hopened (hroot.moves hup hmoves).lends
  | mrReg env r =>
    obtain ⟨heps, hopened, hdom⟩ := mrReg_spec h env r
    refine hs.congr hkept (by rw [seats, heps, seats]) hopened ?_
    rw [hdom]
    exact (hroot.mrRegattr env r).lends
  | mrClose x => exact hs.congr hkept rfl rfl (Domain.Frees.mrPut _ x).regEp
  | invalidate r => exact hs.congr hkept rfl rfl rfl
  | evict flushLru => exact hs.congr hkept rfl rfl (Domain.Frees.flush _ flushLru).regEp

/-! ## Runs -/

/-- **A run stays tenable exactly as long as it is careful**, from any host in order. -/
theorem Seated.tenable_run_iff (hs : h.Seated) (ht : h.Tenable) {acts : List HostAct}
    (hrun : Along Host.act Host.Admits h acts) :
    (∀ n, ((acts.take n).foldl Host.act h).Tenable) ↔ Along Host.act Host.Careful h acts := by
  induction acts generalizing h with
  | nil => exact ⟨fun _ => trivial, fun _ n => by rw [List.take_nil]; exact ht⟩
  | cons a acts ih =>
    obtain ⟨hadm, hrun⟩ := hrun
    -- the first action is careful exactly if it leaves the host tenable
    have hfirst : (h.act a).Tenable ↔ h.Careful a := by
      by_cases hclose : ∃ sock, a = .close sock
      · obtain ⟨sock, rfl⟩ := hclose
        cases hfind : h.find sock with
        | none =>
          have hact : h.act (.close sock) = h := by
            rw [Host.act, hfind]
          rw [hact]
          refine ⟨fun _ e he => ?_, fun _ => ht⟩
          rw [hfind] at he
          cases he
        | some e =>
          rw [hs.tenable_close_iff ht hfind]
          refine ⟨fun hclean f hf => ?_, fun hcareful => hcareful e hfind⟩
          cases hfind.symm.trans hf
          exact hclean
      · have hne : ∀ sock, a ≠ .close sock := fun sock heq => hclose ⟨sock, heq⟩
        refine ⟨fun _ => ?_, fun _ => hs.tenable_act ht hadm hne⟩
        cases a with
        | close sock => exact absurd rfl (hne sock)
        | openEp | enable | ep | mrReg | mrClose | invalidate | evict => trivial
    constructor
    · intro hall
      have hnext : (h.act a).Tenable := hall 1
      exact ⟨hfirst.mp hnext, (ih (hs.act ht hadm) hnext hrun).mp (fun n => hall (n + 1))⟩
    · rintro ⟨hcareful, hrest⟩ n
      have hnext := hfirst.mpr hcareful
      cases n with
      | zero => exact ht
      | succ n => exact (ih (hs.act ht hadm) hnext hrun).mpr hrest n

theorem Seated.init (cacheEnabled : Bool) (maxCnt maxSize : ℕ) :
    (Host.init cacheEnabled maxCnt maxSize).Seated where
  kept := ⟨.opened cacheEnabled none maxCnt maxSize, fun _ h => absurd h List.not_mem_nil,
    fun _ h => absurd h List.not_mem_nil⟩
  apart := List.nodup_nil
  opened s hs := by
    obtain ⟨b, hb⟩ := hs
    cases hb
  lender s hs := by cases hs

theorem Tenable.init (cacheEnabled : Bool) (maxCnt maxSize : ℕ) :
    (Host.init cacheEnabled maxCnt maxSize).Tenable where
  mrs m hm := by cases hm
  entries x hx := by cases hx
  regEp hs := by
    obtain ⟨s, hs⟩ := hs
    cases hs

/-- **Live registrations belong to live endpoints** in every state of a run – endpoints
opened, enabled and closed, windows registered and closed, sends through the cache and
their completions, everything else an endpoint does – exactly if every endpoint that is
closed leaves nothing behind. -/
theorem tenable_iff_careful (cacheEnabled : Bool) (maxCnt maxSize : ℕ) (acts : List HostAct)
    (hrun : Runs cacheEnabled maxCnt maxSize acts) :
    (∀ n, (Host.after cacheEnabled maxCnt maxSize (acts.take n)).Tenable)
      ↔ Along Host.act Host.Careful (Host.init cacheEnabled maxCnt maxSize) acts :=
  (Seated.init cacheEnabled maxCnt maxSize).tenable_run_iff
    (Tenable.init cacheEnabled maxCnt maxSize) hrun

/-- The two endpoints of the examples. -/
def seatCfg (sock : ℕ) : EpCfg := { EpCfg.standard false [10, 20] 10 with sock := sock }

/-- Two endpoints are enabled; the application registers a window, the second endpoint
sends through the cache. Both registrations are on the socket of the first. -/
def twoTenants : List HostAct :=
  [.openEp (seatCfg 3), .openEp (seatCfg 4), .enable 3, .enable 4,
    .mrReg (Env.calm numberCookies) ⟨8192, 4096⟩,
    .ep 4 (.send (Env.calm numberCookies) [⟨1048576, 65537⟩] 1 0 0 7 0 false)]

theorem twoTenants_run (acts : List HostAct) (hacts : Along Host.act Host.Admits
      (Host.after true 1024 268435456 twoTenants) acts) :
    Runs true 1024 268435456 (twoTenants ++ acts) := by
  refine Along.append.mpr ⟨⟨⟨?_, _, configures_standard false _ _⟩,
    ⟨?_, { }, ⟨rfl, rfl, rfl, rfl, rfl⟩⟩, trivial, trivial, trivial,
    ⟨_, rfl, trivial, ?_, ?_⟩, trivial⟩, hacts⟩
  · exact List.not_mem_nil
  · decide
  · exact fun _ h => by cases h
  · exact fun _ h => by cases h

/-- An endpoint on whose socket nothing is registered, and from which the domain does not
borrow or which is the only one enabled, leaves nothing behind. -/
theorem closesClean_of_idle {sock : ℕ} {e : HostEp} (hfind : h.find sock = some e)
    (hmrs : ∀ s ∈ h.dom.mrs.map RdsMr.sock, s ≠ sock)
    (hentries : ∀ s ∈ h.dom.cache.entries.map (fun x => sockOf h.dom.kcalls x.cookie),
      s ≠ some sock)
    (hregEp : h.dom.regEp = some sock → h.seats = [(sock, true)]) : h.ClosesClean e := by
  obtain ⟨-, -, -, rfl, -⟩ := find_split hfind
  refine ⟨fun m hm hsock => ?_, fun x hx hsock => ?_, fun hreg s hs => ?_⟩
  · exact absurd hsock (hmrs _ (List.mem_map_of_mem hm))
  · exact absurd hsock (hentries _ (List.mem_map.mpr ⟨x, hx, rfl⟩))
  · unfold IsEnabled at hs
    rw [hregEp hreg] at hs
    cases List.mem_singleton.mp hs
    rfl

/-- The borrower is closed first, then the window and the entry are given up. -/
def orderlyClose : List HostAct := [.close 4, .mrClose 0, .evict true, .close 3]

/-- **Closed in that order**, nothing is left behind at any point. -/
theorem orderly_close_stays_tenable :
    Runs true 1024 268435456 (twoTenants ++ orderlyClose)
      ∧ ∀ n, (Host.after true 1024 268435456 ((twoTenants ++ orderlyClose).take n)).Tenable := by
  have hrun : Runs true 1024 268435456 (twoTenants ++ orderlyClose) := by
    refine twoTenants_run _ ⟨trivial, ?_, trivial, trivial, trivial⟩
    show 0 ∈ (Host.act (Host.after true 1024 268435456 twoTenants) (.close 4)).windows
    decide +kernel
  refine ⟨hrun, (tenable_iff_careful true 1024 268435456 _ hrun).mpr (Along.append.mpr
    ⟨⟨trivial, trivial, trivial, trivial, trivial, trivial, trivial⟩, fun e he => ?_, trivial,
      trivial, fun e he => ?_, trivial⟩)⟩
  · exact closesClean_of_idle he (by decide +kernel) (by decide +kernel) (by decide +kernel)
  · exact closesClean_of_idle he (by decide +kernel) (by decide +kernel) (by decide +kernel)

/-- **The registering endpoint is closed first**: another is enabled, but nobody can
register any more; the window and the entry of the pending send are on a socket that is
gone. -/
theorem closing_the_lender_strands_others :
    let h := Host.after true 1024 268435456 (twoTenants ++ [.close 3])
    Runs true 1024 268435456 (twoTenants ++ [.close 3])
      ∧ h.seats = [(4, true)] ∧ h.dom.regEp = none
      ∧ h.dom.mrs.map RdsMr.sock = [3]
      ∧ h.dom.cache.entries.map (fun x => sockOf h.dom.kcalls x.cookie) = [some 3]
      ∧ ¬ h.Tenable := by
  intro h
  have hseats : h.seats = [(4, true)] := by decide +kernel
  have hregEp : h.dom.regEp = none := by decide +kernel
  have hmrs : h.dom.mrs.map RdsMr.sock = [3] := by decide +kernel
  have hentries : h.dom.cache.entries.map (fun x => sockOf h.dom.kcalls x.cookie) = [some 3] := by
    decide +kernel
  refine ⟨twoTenants_run _ ⟨trivial, trivial⟩, hseats, hregEp, hmrs, hentries, fun ht => ?_⟩
  obtain ⟨s, hs, -⟩ := ht.regEp ⟨4, by rw [IsEnabled, hseats]; exact List.mem_singleton.mpr rfl⟩
  rw [hregEp] at hs
  cases hs

end Host
