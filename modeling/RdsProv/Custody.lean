import RdsProv.Registration
import RdsProv.Lib.FirstMatch
import Mathlib.Algebra.Order.Group.Multiset
import Mathlib.Data.List.Induction

/-!
# Who holds a registration

A registration is held by whoever will give it back: a rendezvous send its source
chunks, a peer record its ring and its credit cell, the application its windows.
The holders are not written down anywhere in the domain, only their number: the use
count of a cache entry, the reference count of a `struct rds_mr`.

`Domain.Custody` relates the two. It is indexed by the handles that are held,
`cached` ones in the cache and `plain` ones outside it, each as often as it is held,
and says that the counts are those numbers and that nothing held is on a list of
things to be freed. Every operation of the domain keeps it, with the handles it takes
added and those it gives back removed; so holders can be accounted for without looking
into the cache again.

The index `strict` adds what it takes to free only live cookies: that every entry and
every registration carries a cookie of its own, which stands for its region. Then the
provider must not be refused a registration it makes for the cache, because the entry it
abandons goes to `delete_region` with whatever cookie its memory held before.
-/

/-! ## Live cookies -/

/-- Whether a cookie was returned by a registration and has not been freed since. -/
def isLive (calls : List KernelCall) (c : UInt64) : Bool :=
  calls.foldl (fun live k => match k with
    | .getMr _ _ c' => live || c' == c
    | .freeMr _ c' => live && c' != c) false

theorem isLive_append_getMr (calls : List KernelCall) (s : ℕ) (r : Region) (c c' : UInt64) :
    isLive (calls ++ [.getMr s r c']) c = (isLive calls c || c' == c) := by
  unfold isLive
  rw [List.foldl_append]
  rfl

theorem isLive_append_freeMr (calls : List KernelCall) (s : ℕ) (c c' : UInt64) :
    isLive (calls ++ [.freeMr s c']) c = (isLive calls c && c' != c) := by
  unfold isLive
  rw [List.foldl_append]
  rfl

/-- A cookie is live while it stands for a region. -/
theorem isLive_eq_isSome (calls : List KernelCall) (c : UInt64) :
    isLive calls c = (regionOf calls c).isSome := by
  induction calls using List.reverseRecOn with
  | nil => rfl
  | append_singleton calls k ih =>
    cases k with
    | getMr s r c' =>
      rw [isLive_append_getMr, regionOf_append_getMr, ih]
      by_cases hc : c' = c <;> simp [hc]
    | freeMr s c' =>
      rw [isLive_append_freeMr, regionOf_append_freeMr, ih]
      by_cases hc : c' = c <;> simp [hc]

/-- **Every `RDS_FREE_MR` of a log names a cookie that was live.** -/
def FreesLive (calls : List KernelCall) : Prop :=
  ∀ n s c, calls[n]? = some (.freeMr s c) → isLive (calls.take n) c = true

theorem FreesLive.append {calls : List KernelCall} (h : FreesLive calls) {k : KernelCall}
    (hk : ∀ s c, k = .freeMr s c → isLive calls c = true) : FreesLive (calls ++ [k]) := by
  intro n s c hn
  obtain hlt | hge := Nat.lt_or_ge n calls.length
  · rw [List.getElem?_append_left hlt] at hn
    rw [List.take_append_of_le_length hlt.le]
    exact h n s c hn
  · rw [List.getElem?_append_right hge, List.getElem?_singleton] at hn
    split at hn
    · rename_i hzero
      have hn' : n = calls.length := by omega
      rw [hn', List.take_left']
      · exact hk s c (Option.some.inj hn)
      · rfl
    · cases hn

/-- The kernel hands out no cookie that is live. -/
def Env.FreshLive (env : Env) : Prop :=
  ∀ calls r c, env.getMr calls r = .ok c → isLive calls c = false

/-! ## The cache and its users -/

/-- **Use counts are right**: each entry is used as often as its handle is held, what is
held is there, and what is listed as unused is. -/
structure MrCache.Lent (c : MrCache) (next : ℕ) (held : Multiset ℕ) : Prop where
  nodup : (c.entries.map CacheEntry.handle).Nodup
  below : ∀ e ∈ c.entries, e.handle < next
  uses : ∀ e ∈ c.entries, e.useCnt = held.count e.handle
  mem : ∀ h ∈ held, h ∈ c.entries.map CacheEntry.handle
  lruNodup : c.lru.Nodup
  lruIdle : ∀ h ∈ c.lru, h < next ∧ h ∉ held
  deadIdle : ∀ h ∈ c.dead, h < next ∧ h ∉ held
  deadOut : ∀ e ∈ c.entries, e.handle ∈ c.dead → e.inTree = false

namespace MrCache.Lent

variable {c c' : MrCache} {next : ℕ} {held held' : Multiset ℕ}

/-- Entries are changed one by one. -/
theorem of_map (h : c.Lent next held) (g : CacheEntry → CacheEntry)
    (hentries : c'.entries = c.entries.map g) (hhandle : ∀ e, (g e).handle = e.handle)
    (huses : ∀ e ∈ c.entries, (g e).useCnt = held'.count e.handle)
    (hmem : ∀ x ∈ held', x ∈ c.entries.map CacheEntry.handle) (hnodup : c'.lru.Nodup)
    (hlru : ∀ x ∈ c'.lru, x < next ∧ x ∉ held') (hdead : ∀ x ∈ c'.dead, x < next ∧ x ∉ held')
    (hout : ∀ e ∈ c.entries, e.handle ∈ c'.dead → (g e).inTree = false) :
    c'.Lent next held' := by
  have hmap : c'.entries.map CacheEntry.handle = c.entries.map CacheEntry.handle := by
    rw [hentries, List.map_map]
    exact List.map_congr_left (fun e _ => hhandle e)
  have hof : ∀ e ∈ c'.entries, ∃ e₀ ∈ c.entries, g e₀ = e := by
    intro e he
    rw [hentries, List.mem_map] at he
    exact he
  refine ⟨hmap ▸ h.nodup, fun e he => ?_, fun e he => ?_, hmap ▸ hmem, hnodup, hlru, hdead,
    fun e he hd => ?_⟩
  · obtain ⟨e₀, he₀, rfl⟩ := hof e he
    rw [hhandle]
    exact h.below e₀ he₀
  · obtain ⟨e₀, he₀, rfl⟩ := hof e he
    rw [hhandle]
    exact huses e₀ he₀
  · obtain ⟨e₀, he₀, rfl⟩ := hof e he
    rw [hhandle] at hd
    exact hout e₀ he₀ hd

/-- Only the entries and the two lists matter. -/
theorem congr (h : c.Lent next held) (hentries : c'.entries = c.entries) (hlru : c'.lru = c.lru)
    (hdead : c'.dead = c.dead) : c'.Lent next held := by
  obtain ⟨entries, lru, dead, maxCnt, maxSize, pool⟩ := c'
  cases hentries
  cases hlru
  cases hdead
  exact { h with }

/-- More handles may be given out. -/
theorem mono (h : c.Lent next held) {next' : ℕ} (hle : next ≤ next') : c.Lent next' held :=
  { h with
    below := fun e he => (h.below e he).trans_le hle
    lruIdle := fun x hx => ⟨(h.lruIdle x hx).1.trans_le hle, (h.lruIdle x hx).2⟩
    deadIdle := fun x hx => ⟨(h.deadIdle x hx).1.trans_le hle, (h.deadIdle x hx).2⟩ }

/-- What is held is a handle given out. -/
theorem lt_of_mem (h : c.Lent next held) {x : ℕ} (hx : x ∈ held) : x < next := by
  obtain ⟨e, he, rfl⟩ := List.mem_map.mp (h.mem x hx)
  exact h.below e he

/-- An entry leaves the tree. -/
theorem uncacheStorage (h : c.Lent next held) (x : ℕ) : (c.uncacheStorage x).Lent next held := by
  refine h.of_map _ rfl (fun e => ?_) (fun e he => ?_) h.mem h.lruNodup h.lruIdle h.deadIdle
    (fun e he hd => ?_)
  · split <;> rfl
  · rw [← h.uses e he]
    split <;> rfl
  · split
    · rfl
    · exact h.deadOut e he hd

/-- An entry leaves the tree, and if it is unused it is to be freed. -/
theorem uncache (h : c.Lent next held) {e : CacheEntry} (hlt : e.handle < next)
    (he : e.useCnt = held.count e.handle) : (c.uncache e).Lent next held := by
  have hout := h.uncacheStorage e.handle
  unfold MrCache.uncache
  dsimp only
  split
  swap
  · exact hout
  rename_i hzero
  have hidle : e.handle ∉ held := Multiset.count_eq_zero.mp (he.symm.trans hzero)
  refine { hout with
    lruNodup := hout.lruNodup.erase _
    lruIdle := fun x hx => hout.lruIdle x (List.mem_of_mem_erase hx)
    deadIdle := fun x hx => ?_
    deadOut := fun x hx hd => ?_ }
  · obtain hx | hx := List.mem_append.mp hx
    · exact hout.deadIdle x hx
    · rw [List.mem_singleton.mp hx]
      exact ⟨hlt, hidle⟩
  · obtain hd | hd := List.mem_append.mp hd
    · exact hout.deadOut x hx hd
    · obtain ⟨y, -, rfl⟩ := List.mem_map.mp hx
      dsimp only at hd ⊢
      split
      · rfl
      · rename_i hne
        rw [if_neg hne] at hd
        exact absurd (List.mem_singleton.mp hd) hne

theorem foldl_uncache {l : List CacheEntry} (h : c.Lent next held)
    (hl : ∀ e ∈ l, e.handle < next ∧ e.useCnt = held.count e.handle) :
    (l.foldl MrCache.uncache c).Lent next held := by
  induction l generalizing c with
  | nil => exact h
  | cons e l ih =>
    obtain ⟨he, hl⟩ := List.forall_mem_cons.mp hl
    exact ih (h.uncache he.1 he.2) hl

/-- An unused entry is removed. -/
theorem remove (h : c.Lent next held) {x : ℕ} (hx : x ∉ held) (pool : List UInt64) :
    MrCache.Lent { c with entries := c.entries.filter (·.handle != x), pool := pool } next
      held where
  nodup := h.nodup.sublist (List.filter_sublist.map _)
  below e he := h.below e (List.mem_filter.mp he).1
  uses e he := h.uses e (List.mem_filter.mp he).1
  mem y hy := by
    obtain ⟨e, he, rfl⟩ := List.mem_map.mp (h.mem y hy)
    refine List.mem_map.mpr ⟨e, List.mem_filter.mpr ⟨he, ?_⟩, rfl⟩
    have hne : e.handle ≠ x := by
      rintro rfl
      exact hx hy
    simpa using hne
  lruNodup := h.lruNodup
  lruIdle := h.lruIdle
  deadIdle := h.deadIdle
  deadOut e he := h.deadOut e (List.mem_filter.mp he).1

/-- **A hit takes one more reference.** -/
theorem take (h : c.Lent next held) {e : CacheEntry} (he : e ∈ c.tree) (lru : List ℕ)
    (hlru : lru = if e.useCnt = 0 then c.lru.erase e.handle else c.lru) :
    MrCache.Lent { c.modify e.handle (fun e => { e with useCnt := e.useCnt + 1 }) with lru := lru }
      next (e.handle ::ₘ held) := by
  obtain ⟨hmem, htree⟩ := List.mem_filter.mp he
  -- a held entry is on no list, an unheld one leaves the LRU list and is not dead
  have hoff : ∀ x ∈ lru, x ∈ c.lru ∧ x ≠ e.handle := by
    intro x hx
    rw [hlru] at hx
    split at hx
    · exact ⟨List.mem_of_mem_erase hx, (h.lruNodup.mem_erase_iff.mp hx).1⟩
    · rename_i hused
      refine ⟨hx, ?_⟩
      rintro rfl
      exact hused ((h.uses e hmem).trans (Multiset.count_eq_zero.mpr (h.lruIdle _ hx).2))
  refine h.of_map _ rfl (fun x => ?_) (fun x hx => ?_) (fun x hx => ?_) ?_ (fun x hx => ?_)
    (fun x hx => ?_) (fun x hx hd => ?_)
  · split <;> rfl
  · split
    · rename_i heq
      rw [heq, Multiset.count_cons_self, ← heq, ← h.uses x hx]
    · rename_i hne
      rw [Multiset.count_cons_of_ne hne, ← h.uses x hx]
  · obtain rfl | hx := Multiset.mem_cons.mp hx
    · exact List.mem_map_of_mem hmem
    · exact h.mem x hx
  · show lru.Nodup
    rw [hlru]
    split
    · exact h.lruNodup.erase _
    · exact h.lruNodup
  · obtain ⟨hold, hne⟩ := hoff x hx
    exact ⟨(h.lruIdle x hold).1, by simpa [hne] using (h.lruIdle x hold).2⟩
  · have hne : x ≠ e.handle := by
      rintro rfl
      rw [h.deadOut e hmem hx] at htree
      cases htree
    exact ⟨(h.deadIdle x hx).1, by simpa [hne] using (h.deadIdle x hx).2⟩
  · have hd : x.inTree = false := h.deadOut x hx hd
    split
    · exact hd
    · exact hd

/-- **A reference is given back**; the entry stays where it was, or is kept for later. -/
theorem giveBack {x : ℕ} (h : c.Lent next (x ::ₘ held)) (lru : List ℕ)
    (hlru : lru = c.lru ∨ (x ∉ held ∧ lru = c.lru ++ [x])) :
    MrCache.Lent { c.modify x (fun e => { e with useCnt := e.useCnt - 1 }) with lru := lru }
      next held := by
  have hx : x ∈ x ::ₘ held := Multiset.mem_cons_self x held
  have hidle : ∀ y ∈ c.lru, y < next ∧ y ∉ held := fun y hy =>
    ⟨(h.lruIdle y hy).1, fun hy' => (h.lruIdle y hy).2 (Multiset.mem_cons_of_mem hy')⟩
  refine h.of_map _ rfl (fun e => ?_) (fun e he => ?_)
    (fun y hy => h.mem y (Multiset.mem_cons_of_mem hy)) ?_ (fun y hy => ?_)
    (fun y hy => ⟨(h.deadIdle y hy).1,
      fun hy' => (h.deadIdle y hy).2 (Multiset.mem_cons_of_mem hy')⟩) (fun e he hd => ?_)
  · split <;> rfl
  · have huses := h.uses e he
    split
    · rename_i heq
      rw [heq, Multiset.count_cons_self] at huses
      show e.useCnt - 1 = _
      rw [huses, heq, Nat.add_sub_cancel]
    · rename_i hne
      rwa [Multiset.count_cons_of_ne hne] at huses
  · show lru.Nodup
    obtain rfl | ⟨-, rfl⟩ := hlru
    · exact h.lruNodup
    · refine List.nodup_append.mpr ⟨h.lruNodup, List.nodup_singleton x, ?_⟩
      intro a ha b hb
      rw [List.mem_singleton.mp hb]
      rintro rfl
      exact (h.lruIdle a ha).2 hx
  · obtain rfl | ⟨hlast, rfl⟩ := hlru
    · exact hidle y hy
    · obtain hy | hy := List.mem_append.mp hy
      · exact hidle y hy
      · rw [List.mem_singleton.mp hy]
        exact ⟨h.lt_of_mem hx, hlast⟩
  · have hd : e.inTree = false := h.deadOut e he hd
    split
    · exact hd
    · exact hd

/-- A new entry, with its first user. -/
theorem add (h : c.Lent next held) {e : CacheEntry} (hentries : c'.entries = c.entries ++ [e])
    (hhandle : e.handle = next) (huse : e.useCnt = 1) (hlru : c'.lru = c.lru)
    (hdead : c'.dead = c.dead) : c'.Lent (next + 1) (next ::ₘ held) := by
  have hnew : next ∉ held := fun hin => by
    obtain ⟨x, hx, hxn⟩ := List.mem_map.mp (h.mem next hin)
    exact (h.below x hx).ne hxn
  have hcases : ∀ x ∈ c'.entries, x ∈ c.entries ∨ x = e := by
    intro x hx
    rw [hentries, List.mem_append, List.mem_singleton] at hx
    exact hx
  have hne : ∀ x ∈ c.entries, x.handle ≠ next := fun x hx => (h.below x hx).ne
  refine ⟨?_, fun x hx => ?_, fun x hx => ?_, fun x hx => ?_, hlru ▸ h.lruNodup, ?_, ?_, ?_⟩
  · rw [hentries, List.map_append]
    refine List.nodup_append.mpr ⟨h.nodup, List.nodup_singleton _, ?_⟩
    intro a ha b hb
    obtain ⟨x, hx, rfl⟩ := List.mem_map.mp ha
    rw [List.map_singleton, List.mem_singleton] at hb
    rw [hb, hhandle]
    exact hne x hx
  · obtain hx | rfl := hcases x hx
    · exact (h.below x hx).trans (Nat.lt_succ_self _)
    · rw [hhandle]
      exact Nat.lt_succ_self _
  · obtain hx | rfl := hcases x hx
    · rw [Multiset.count_cons_of_ne (hne x hx), h.uses x hx]
    · rw [hhandle, Multiset.count_cons_self, Multiset.count_eq_zero.mpr hnew, huse]
  · rw [hentries, List.map_append, List.mem_append]
    obtain rfl | hx := Multiset.mem_cons.mp hx
    · exact .inr (by simp [hhandle])
    · exact .inl (h.mem x hx)
  · rw [hlru]
    refine fun x hx => ⟨(h.lruIdle x hx).1.trans (Nat.lt_succ_self _), ?_⟩
    simpa [(h.lruIdle x hx).1.ne] using (h.lruIdle x hx).2
  · rw [hdead]
    refine fun x hx => ⟨(h.deadIdle x hx).1.trans (Nat.lt_succ_self _), ?_⟩
    simpa [(h.deadIdle x hx).1.ne] using (h.deadIdle x hx).2
  · rw [hdead]
    intro x hx hd
    obtain hx | rfl := hcases x hx
    · exact h.deadOut x hx hd
    · rw [hhandle] at hd
      exact absurd (h.deadIdle _ hd).1 (Nat.lt_irrefl _)

/-- An entry that is used enters the tree. -/
theorem enter (h : c.Lent next held) {x : ℕ} (hx : x ∈ held) :
    (c.modify x (fun e => { e with inTree := true })).Lent next held := by
  refine h.of_map _ rfl (fun e => ?_) (fun e he => ?_) h.mem h.lruNodup h.lruIdle h.deadIdle
    (fun e he hd => ?_)
  · split <;> rfl
  · rw [← h.uses e he]
    split <;> rfl
  · split
    · rename_i heq
      rw [heq] at hd
      exact absurd hx (h.deadIdle x hd).2
    · exact h.deadOut e he hd

/-- What is held can be found. -/
theorem find?_isSome (h : c.Lent next held) {x : ℕ} (hx : x ∈ held) :
    ∃ e, c.entries.find? (·.handle == x) = some e ∧ e ∈ c.entries ∧ e.handle = x := by
  obtain ⟨e, he, hex⟩ := List.mem_map.mp (h.mem x hx)
  cases hfind : c.entries.find? (·.handle == x) with
  | none => simpa [hex] using List.find?_eq_none.mp hfind e he
  | some e' =>
    exact ⟨e', rfl, List.mem_of_find?_eq_some hfind, by simpa using List.find?_some hfind⟩

end MrCache.Lent

/-! ## Registrations outside the cache -/

/-- **Reference counts are right**: each registration is referred to as often as its
handle is held, and what is held is there. -/
structure RdsMr.Lent (mrs : List RdsMr) (next : ℕ) (held : Multiset ℕ) : Prop where
  nodup : (mrs.map RdsMr.handle).Nodup
  below : ∀ m ∈ mrs, m.handle < next
  refs : ∀ m ∈ mrs, m.ref = held.count m.handle
  pos : ∀ m ∈ mrs, m.handle ∈ held
  mem : ∀ h ∈ held, h ∈ mrs.map RdsMr.handle

namespace RdsMr.Lent

variable {mrs : List RdsMr} {next : ℕ} {held : Multiset ℕ}

theorem mono (h : RdsMr.Lent mrs next held) {next' : ℕ} (hle : next ≤ next') :
    RdsMr.Lent mrs next' held :=
  { h with below := fun m hm => (h.below m hm).trans_le hle }

/-- A new registration, with its first holder. -/
theorem add (h : RdsMr.Lent mrs next held) {mr : RdsMr} (hhandle : mr.handle = next)
    (href : mr.ref = 1) : RdsMr.Lent (mrs ++ [mr]) (next + 1) (next ::ₘ held) := by
  have hne : ∀ m ∈ mrs, m.handle ≠ next := fun m hm => (h.below m hm).ne
  have hnew : next ∉ held := fun hin => by
    obtain ⟨m, hm, hmn⟩ := List.mem_map.mp (h.mem next hin)
    exact hne m hm hmn
  refine ⟨?_, fun m hm => ?_, fun m hm => ?_, fun m hm => ?_, fun x hx => ?_⟩
  · rw [List.map_append]
    refine List.nodup_append.mpr ⟨h.nodup, List.nodup_singleton _, ?_⟩
    intro a ha b hb
    obtain ⟨m, hm, rfl⟩ := List.mem_map.mp ha
    rw [List.map_singleton, List.mem_singleton] at hb
    rw [hb, hhandle]
    exact hne m hm
  · obtain hm | hm := List.mem_append.mp hm
    · exact (h.below m hm).trans (Nat.lt_succ_self _)
    · rw [List.mem_singleton.mp hm, hhandle]
      exact Nat.lt_succ_self _
  · obtain hm | hm := List.mem_append.mp hm
    · rw [Multiset.count_cons_of_ne (hne m hm), h.refs m hm]
    · rw [List.mem_singleton.mp hm, hhandle, Multiset.count_cons_self,
        Multiset.count_eq_zero.mpr hnew, href]
  · obtain hm | hm := List.mem_append.mp hm
    · exact Multiset.mem_cons_of_mem (h.pos m hm)
    · rw [List.mem_singleton.mp hm, hhandle]
      exact Multiset.mem_cons_self _ _
  · rw [List.map_append, List.mem_append]
    obtain rfl | hx := Multiset.mem_cons.mp hx
    · exact .inr (by simp [hhandle])
    · exact .inl (h.mem x hx)

/-- One of several references is given back. -/
theorem decrement {x : ℕ} (h : RdsMr.Lent mrs next (x ::ₘ held)) (hx : x ∈ held) :
    RdsMr.Lent (mrs.map (fun m => if m.handle = x then { m with ref := m.ref - 1 } else m)) next
      held := by
  have hhandle : ∀ m : RdsMr, (if m.handle = x then { m with ref := m.ref - 1 } else m).handle
      = m.handle := fun m => by split <;> rfl
  have hmap : (mrs.map (fun m => if m.handle = x then { m with ref := m.ref - 1 } else m)).map
      RdsMr.handle = mrs.map RdsMr.handle := by
    rw [List.map_map]
    exact List.map_congr_left (fun m _ => hhandle m)
  refine ⟨hmap ▸ h.nodup, fun m hm => ?_, fun m hm => ?_, fun m hm => ?_,
    fun y hy => hmap ▸ h.mem y (Multiset.mem_cons_of_mem hy)⟩
  · obtain ⟨m₀, hm₀, rfl⟩ := List.mem_map.mp hm
    rw [hhandle]
    exact h.below m₀ hm₀
  · obtain ⟨m₀, hm₀, rfl⟩ := List.mem_map.mp hm
    have href := h.refs m₀ hm₀
    rw [hhandle]
    split
    · rename_i heq
      rw [heq, Multiset.count_cons_self] at href
      show m₀.ref - 1 = _
      rw [href, heq, Nat.add_sub_cancel]
    · rename_i hne
      rwa [Multiset.count_cons_of_ne hne] at href
  · obtain ⟨m₀, hm₀, rfl⟩ := List.mem_map.mp hm
    rw [hhandle]
    obtain heq | hmem := Multiset.mem_cons.mp (h.pos m₀ hm₀)
    · rw [heq]
      exact hx
    · exact hmem

/-- The last reference is given back. -/
theorem remove {x : ℕ} (h : RdsMr.Lent mrs next (x ::ₘ held)) (hx : x ∉ held) :
    RdsMr.Lent (mrs.filter (·.handle != x)) next held := by
  have hne : ∀ m ∈ mrs.filter (·.handle != x), m ∈ mrs ∧ m.handle ≠ x := fun m hm => by
    obtain ⟨hm, hne⟩ := List.mem_filter.mp hm
    exact ⟨hm, by simpa using hne⟩
  refine ⟨h.nodup.sublist (List.filter_sublist.map _), fun m hm => h.below m (hne m hm).1,
    fun m hm => ?_, fun m hm => ?_, fun y hy => ?_⟩
  · rw [h.refs m (hne m hm).1, Multiset.count_cons_of_ne (hne m hm).2]
  · exact (Multiset.mem_cons.mp (h.pos m (hne m hm).1)).resolve_left (hne m hm).2
  · obtain ⟨m, hm, rfl⟩ := List.mem_map.mp (h.mem y (Multiset.mem_cons_of_mem hy))
    refine List.mem_map.mpr ⟨m, List.mem_filter.mpr ⟨hm, ?_⟩, rfl⟩
    have hmx : m.handle ≠ x := by
      rintro rfl
      exact hx hy
    simpa using hmx

end RdsMr.Lent

/-! ## Cookies with an owner -/

/-- **Each of some cookies is there only once and stands for the region next to it**, and
only live cookies were freed. -/
structure Owned (calls : List KernelCall) (cookies : List (UInt64 × Region)) : Prop where
  nodup : (cookies.map Prod.fst).Nodup
  own : ∀ p ∈ cookies, regionOf calls p.1 = some p.2
  frees : FreesLive calls

namespace Owned

variable {calls : List KernelCall} {l l' : List (UInt64 × Region)} {c : UInt64} {r : Region}

theorem live (h : Owned calls l) {p : UInt64 × Region} (hp : p ∈ l) :
    isLive calls p.1 = true := by
  rw [isLive_eq_isSome, h.own p hp]
  rfl

/-- No other cookie is the same. -/
theorem ne_of_perm (h : Owned calls l) (hperm : l.Perm ((c, r) :: l')) {p : UInt64 × Region}
    (hp : p ∈ l') : c ≠ p.1 := by
  have hnodup := (hperm.map Prod.fst).nodup_iff.mp h.nodup
  rintro rfl
  exact (List.nodup_cons.mp hnodup).1 (List.mem_map.mpr ⟨p, hp, rfl⟩)

/-- A cookie is given up without being freed. -/
theorem drop (h : Owned calls l) (hperm : l.Perm ((c, r) :: l')) : Owned calls l' where
  nodup := (List.nodup_cons.mp ((hperm.map Prod.fst).nodup_iff.mp h.nodup)).2
  own p hp := h.own p (hperm.mem_iff.mpr (List.mem_cons_of_mem _ hp))
  frees := h.frees

/-- A cookie is freed by its owner. -/
theorem free (h : Owned calls l) (hperm : l.Perm ((c, r) :: l')) (s : ℕ) :
    Owned (calls ++ [.freeMr s c]) l' where
  nodup := (h.drop hperm).nodup
  own p hp := by
    rw [regionOf_append_freeMr, if_neg (h.ne_of_perm hperm hp)]
    exact (h.drop hperm).own p hp
  frees := h.frees.append (fun s' c' hk => by
    cases hk
    exact h.live (hperm.mem_iff.mpr List.mem_cons_self))

/-- A cookie that is not live is returned. -/
theorem get (h : Owned calls l) (hc : isLive calls c = false) (hperm : l'.Perm ((c, r) :: l))
    (s : ℕ) : Owned (calls ++ [.getMr s r c]) l' := by
  have hne : ∀ p ∈ l, c ≠ p.1 := by
    rintro p hp rfl
    rw [h.live hp] at hc
    cases hc
  refine ⟨?_, fun p hp => ?_, h.frees.append (fun s' c' hk => by cases hk)⟩
  · refine (hperm.map Prod.fst).nodup_iff.mpr (List.nodup_cons.mpr ⟨fun hin => ?_, h.nodup⟩)
    obtain ⟨p, hp, heq⟩ := List.mem_map.mp hin
    exact hne p hp heq.symm
  · rw [regionOf_append_getMr]
    obtain rfl | hin := List.mem_cons.mp (hperm.mem_iff.mp hp)
    · rw [if_pos rfl]
    · rw [if_neg (hne p hin)]
      exact h.own p hin

end Owned

/-! ## The domain -/

/-- What an entry was registered for. -/
def CacheEntry.held (e : CacheEntry) : UInt64 × Region := (e.cookie, e.iov)

/-- What a registration was made for. -/
def RdsMr.held (m : RdsMr) : UInt64 × Region := (m.cookie, m.region)

/-- The cookies of the cache entries and of the registrations outside the cache, with
their regions. -/
def Domain.cookies (dom : Domain) : List (UInt64 × Region) :=
  dom.cache.entries.map CacheEntry.held ++ dom.mrs.map RdsMr.held

/-- **Custody**: counts are right, and under `strict` every cookie has one owner. -/
structure Domain.Custody (strict : Prop) (dom : Domain) (cached plain : Multiset ℕ) : Prop where
  cache : dom.cache.Lent dom.nextHandle cached
  mrs : RdsMr.Lent dom.mrs dom.nextHandle plain
  owned : strict → Owned dom.kcalls dom.cookies

namespace Domain.Custody

variable {strict : Prop} {dom : Domain} {cached plain : Multiset ℕ}

theorem opened (cacheEnabled : Bool) (regEp : Option ℕ) (maxCnt maxSize : ℕ) :
    (Domain.opened cacheEnabled regEp maxCnt maxSize).Custody strict 0 0 := by
  refine ⟨⟨List.nodup_nil, ?_, ?_, ?_, List.nodup_nil, ?_, ?_, ?_⟩,
    ⟨List.nodup_nil, ?_, ?_, ?_, ?_⟩, fun _ => ⟨List.nodup_nil, ?_, ?_⟩⟩
  all_goals simp [Domain.opened, Domain.cookies, FreesLive]

theorem tick (h : dom.Custody strict cached plain) (t : ℕ) :
    Domain.Custody strict { dom with tick := t } cached plain := ⟨h.cache, h.mrs, h.owned⟩

/-- Only flags and lists of the cache change. -/
theorem recache (h : dom.Custody strict cached plain) {c : MrCache} {cached' : Multiset ℕ}
    (hc : c.Lent dom.nextHandle cached')
    (hcookies : c.entries.map CacheEntry.held = dom.cache.entries.map CacheEntry.held) :
    Domain.Custody strict { dom with cache := c } cached' plain := by
  refine ⟨hc, h.mrs, fun hs => ?_⟩
  have howned := h.owned hs
  unfold Domain.cookies at howned ⊢
  rw [hcookies]
  exact howned

/-- **An unused entry is freed**, and its cookie with it. -/
theorem freeEntry (h : dom.Custody strict cached plain) {x : ℕ} (hx : x ∉ cached) :
    (utilMrFreeEntry dom x).Custody strict cached plain := by
  unfold utilMrFreeEntry
  cases hfind : dom.cache.entries.find? (·.handle == x) with
  | none => exact h
  | some e =>
    dsimp only
    obtain ⟨l₁, l₂, hl, hfilter⟩ := List.filter_ne_of_nodup h.cache.nodup hfind
    have hperm : dom.cookies.Perm (e.held :: ((l₁ ++ l₂).map CacheEntry.held
        ++ dom.mrs.map RdsMr.held)) := by
      unfold Domain.cookies
      rw [hl, List.map_append, List.map_cons, List.map_append, List.append_assoc, List.cons_append,
        List.append_assoc]
      exact List.perm_middle
    have hcache := h.cache.remove hx (e.cookie :: dom.cache.pool)
    unfold rdsCacheDeleteRegion
    cases dom.regEp with
    | none =>
      refine ⟨hcache, h.mrs, fun hs => ?_⟩
      unfold Domain.cookies
      dsimp only
      rw [hfilter]
      exact (h.owned hs).drop hperm
    | some s =>
      refine ⟨hcache, h.mrs, fun hs => ?_⟩
      unfold Domain.cookies rdsKernelFree
      dsimp only
      rw [hfilter]
      exact (h.owned hs).free hperm s

theorem foldl_freeEntry (h : dom.Custody strict cached plain) {l : List ℕ}
    (hl : ∀ x ∈ l, x ∉ cached) : (l.foldl utilMrFreeEntry dom).Custody strict cached plain := by
  induction l generalizing dom with
  | nil => exact h
  | cons x l ih =>
    obtain ⟨hx, hl⟩ := List.forall_mem_cons.mp hl
    exact ih (h.freeEntry hx) hl

end Domain.Custody

/-- Taking an entry out of the tree does not touch its cookie. -/
theorem MrCache.cookies_uncacheStorage (c : MrCache) (x : ℕ) :
    (c.uncacheStorage x).entries.map CacheEntry.held = c.entries.map CacheEntry.held := by
  unfold MrCache.uncacheStorage MrCache.modify
  rw [List.map_map]
  refine List.map_congr_left (fun e _ => ?_)
  dsimp only [Function.comp_apply]
  split <;> rfl

theorem MrCache.cookies_foldl_uncache (l : List CacheEntry) (c : MrCache) :
    (l.foldl MrCache.uncache c).entries.map CacheEntry.held
      = c.entries.map CacheEntry.held := by
  induction l generalizing c with
  | nil => rfl
  | cons e l ih =>
    rw [List.foldl_cons, ih, MrCache.uncache]
    split
    · exact c.cookies_uncacheStorage e.handle
    · exact c.cookies_uncacheStorage e.handle

/-- What the LRU loop does: entries leave the tree, and those evicted were listed. -/
theorem evictLru_lent {next : ℕ} {held : Multiset ℕ} (lru : List ℕ) {c : MrCache}
    (h : c.Lent next held) (hlru : c.lru = lru) (flushLru : Bool) :
    (evictLru lru c flushLru).1.Lent next held
      ∧ (evictLru lru c flushLru).1.entries.map CacheEntry.held
        = c.entries.map CacheEntry.held
      ∧ ∀ x ∈ (evictLru lru c flushLru).2, x ∉ held := by
  induction lru generalizing c flushLru with
  | nil => exact ⟨h, rfl, by simp [evictLru]⟩
  | cons x lru ih =>
    rw [evictLru]
    cases flushLru with
    | false => exact ⟨h, rfl, by simp⟩
    | true =>
      rw [if_pos rfl]
      dsimp only
      have hout := h.uncacheStorage x
      have hpop : MrCache.Lent { c.uncacheStorage x with lru := lru } next held := by
        have hnodup := h.lruNodup
        rw [hlru] at hnodup
        refine { hout with
          lruNodup := (List.nodup_cons.mp hnodup).2
          lruIdle := fun y hy => h.lruIdle y ?_ }
        rw [hlru]
        exact List.mem_cons_of_mem x hy
      obtain ⟨hlent, hcookies, hevicted⟩ := ih hpop rfl
        (MrCache.full { c.uncacheStorage x with lru := lru })
      refine ⟨hlent, hcookies.trans (c.cookies_uncacheStorage x), fun y hy => ?_⟩
      obtain rfl | hy := List.mem_cons.mp hy
      · refine (h.lruIdle _ ?_).2
        rw [hlru]
        exact List.mem_cons_self
      · exact hevicted y hy

namespace Domain.Custody

variable {strict : Prop} {dom : Domain} {cached plain : Multiset ℕ}

theorem flush (h : dom.Custody strict cached plain) (flushLru : Bool) :
    (ofiMrCacheFlush dom flushLru).1.Custody strict cached plain := by
  have hburied : MrCache.Lent { dom.cache with dead := [] } dom.nextHandle cached :=
    { h.cache with
      deadIdle := fun x hx => absurd hx List.not_mem_nil
      deadOut := fun e _ hd => absurd hd List.not_mem_nil }
  obtain ⟨hlent, hcookies, hevicted⟩ := evictLru_lent dom.cache.lru hburied rfl flushLru
  unfold ofiMrCacheFlush
  dsimp only
  refine (h.recache hlent hcookies).foldl_freeEntry (fun x hx => ?_)
  obtain hx | hx := List.mem_append.mp hx
  · exact (h.cache.deadIdle x hx).2
  · exact hevicted x hx

/-- Entries of the tree are taken out of it. -/
theorem foldl_uncache (h : dom.Custody strict cached plain) {l : List CacheEntry}
    (hl : ∀ e ∈ l, e ∈ dom.cache.entries) :
    Domain.Custody strict { dom with cache := l.foldl MrCache.uncache dom.cache } cached plain :=
  h.recache
    (h.cache.foldl_uncache (fun e he => ⟨h.cache.below e (hl e he), h.cache.uses e (hl e he)⟩))
    (MrCache.cookies_foldl_uncache l dom.cache)

theorem notify (h : dom.Custody strict cached plain) (r : Region) :
    (ofiMrCacheNotify dom r).Custody strict cached plain :=
  h.foldl_uncache (fun _ he => (List.mem_filter.mp (List.mem_filter.mp he).1).1)

theorem prune (h : dom.Custody strict cached plain) :
    (cachePrune dom).Custody strict cached plain := by
  unfold cachePrune
  dsimp only
  split
  · exact (h.tick _).flush _
  · exact h.tick _

theorem purge (h : dom.Custody strict cached plain) (r : Region) :
    (cachePurge dom r).Custody strict cached plain :=
  h.foldl_uncache (fun _ he => (List.mem_filter.mp (List.mem_filter.mp he).1).1)

/-- **A hit**: one more reference to the entry. -/
theorem take (h : dom.Custody strict cached plain) {e : CacheEntry} (he : e ∈ dom.cache.tree) :
    (cacheTake dom e).Custody strict (e.handle ::ₘ cached) plain := by
  have hlent := h.cache.take he _ rfl
  have hcookies : (dom.cache.modify e.handle
      (fun e => { e with useCnt := e.useCnt + 1 })).entries.map CacheEntry.held
      = dom.cache.entries.map CacheEntry.held := by
    unfold MrCache.modify
    rw [List.map_map]
    refine List.map_congr_left (fun x _ => ?_)
    dsimp only [Function.comp_apply]
    split <;> rfl
  unfold cacheTake
  dsimp only
  by_cases hzero : e.useCnt = 0
  · rw [if_pos hzero] at hlent ⊢
    exact h.recache hlent hcookies
  · rw [if_neg hzero] at hlent ⊢
    exact h.recache hlent hcookies

/-- **A reference to an entry is given back.** -/
theorem cacheDelete {x : ℕ} (h : dom.Custody strict (x ::ₘ cached) plain) :
    (ofiMrCacheDelete dom x).Custody strict cached plain := by
  obtain ⟨e, hfind, he, rfl⟩ := h.cache.find?_isSome (Multiset.mem_cons_self x cached)
  have huses := h.cache.uses e he
  rw [Multiset.count_cons_self] at huses
  have hcookies : (dom.cache.modify e.handle
      (fun e => { e with useCnt := e.useCnt - 1 })).entries.map CacheEntry.held
      = dom.cache.entries.map CacheEntry.held := by
    unfold MrCache.modify
    rw [List.map_map]
    refine List.map_congr_left (fun x _ => ?_)
    dsimp only [Function.comp_apply]
    split <;> rfl
  have hstay := h.recache (h.cache.giveBack dom.cache.lru (.inl rfl)) hcookies
  unfold ofiMrCacheDelete
  rw [hfind]
  dsimp only
  split
  · exact hstay
  rename_i hlast
  have hidle : e.handle ∉ cached := by
    refine Multiset.count_eq_zero.mp ?_
    omega
  split
  · exact h.recache (h.cache.giveBack (dom.cache.lru ++ [e.handle]) (.inr ⟨hidle, rfl⟩)) hcookies
  · exact hstay.freeEntry hidle

end Domain.Custody

/-! ## Creating an entry -/

/-- The kernel grants the registration of a region for the cache, or is not asked. -/
def Env.Grants (env : Env) (dom : Domain) (r : Region) : Prop :=
  dom.regEp = none ∨ ∃ c, env.getMr dom.kcalls r = .ok c

namespace Domain.Custody

variable {strict : Prop} {dom : Domain} {cached plain : Multiset ℕ}

theorem numbered (h : dom.Custody strict cached plain) : dom.Numbered := h.cache.below

theorem handle_ne (h : dom.Custody strict cached plain) :
    ∀ x ∈ dom.cache.entries, x.handle ≠ dom.nextHandle := fun x hx => (h.cache.below x hx).ne

/-- A newly registered entry has its first user. -/
theorem withEntry (h : dom.Custody strict cached plain) {s : ℕ} {r : Region} {c : UInt64}
    (hc : strict → isLive dom.kcalls c = false) :
    (dom.withEntry s r c).Custody strict (dom.nextHandle ::ₘ cached) plain := by
  refine ⟨h.cache.add rfl rfl rfl rfl rfl, h.mrs.mono (Nat.le_succ _), fun hs => ?_⟩
  refine (h.owned hs).get (hc hs) ?_ s
  unfold Domain.withEntry Domain.cookies
  dsimp only
  rw [List.map_append, List.append_assoc]
  exact List.perm_middle

/-- An entry that was registered is abandoned. -/
theorem abandon (h : dom.Custody strict cached plain) {s : ℕ} (hregEp : dom.regEp = some s)
    {r : Region} {c : UInt64} (hc : strict → isLive dom.kcalls c = false) (t : ℕ) :
    (utilMrFreeEntry { dom.withEntry s r c with tick := t } dom.nextHandle).Custody strict cached
      plain := by
  have hfree := utilMrFreeEntry_last (e := ⟨dom.nextHandle, r, c, 1, false⟩)
    (show ({ dom.withEntry s r c with tick := t } : Domain).cache.entries = _ from rfl) h.handle_ne
  rw [hfree]
  unfold rdsCacheDeleteRegion
  rw [show ({ dom.withEntry s r c with tick := t } : Domain).regEp = some s from hregEp]
  refine ⟨(h.cache.mono (Nat.le_succ _)).congr rfl rfl rfl, h.mrs.mono (Nat.le_succ _),
    fun hs => ?_⟩
  exact ((h.owned hs).get (hc hs) (List.Perm.refl _) s).free (List.Perm.refl _) s

/-- **An entry that could not be registered is abandoned**: the counts are right; the
cookies are only if `delete_region` frees nothing. -/
theorem abandonRefused (h : dom.Custody strict cached plain) (hregEp : strict → dom.regEp = none)
    (r : Region) :
    (utilMrFreeEntry (utilMrEntryAlloc dom r) dom.nextHandle).Custody strict cached plain := by
  have hfree := utilMrFreeEntry_last (e := ⟨dom.nextHandle, r, dom.cache.pool.headD 0, 1, false⟩)
    (show (utilMrEntryAlloc dom r).cache.entries = _ from rfl) h.handle_ne
  rw [hfree]
  unfold rdsCacheDeleteRegion
  rw [show (utilMrEntryAlloc dom r).regEp = dom.regEp from rfl]
  have hcache := h.cache.mono (Nat.le_succ dom.nextHandle)
  cases hep : dom.regEp with
  | none => exact ⟨hcache.congr rfl rfl rfl, h.mrs.mono (Nat.le_succ _), h.owned⟩
  | some s =>
    refine ⟨hcache.congr rfl rfl rfl, h.mrs.mono (Nat.le_succ _), fun hs => ?_⟩
    rw [hregEp hs] at hep
    cases hep

/-- **Creating an entry** takes a reference to it, or leaves everything held as it
was. -/
theorem create {env : Env} (h : dom.Custody strict cached plain) (henv : strict → env.FreshLive)
    {r : Region} (hlen : strict → r.len ≤ rdsKernelSegMax)
    (hgrant : strict → env.alloc dom.tick = true → env.Grants dom r) {dom' : Domain}
    {res : Except ℕ+ ℕ} (heq : utilMrCacheCreate env dom r = (dom', res)) :
    match (motive := Except ℕ+ ℕ → Prop) res with
      | .error _ => dom'.Custody strict cached plain
      | .ok x => dom'.Custody strict (x ::ₘ cached) plain := by
  unfold utilMrCacheCreate at heq
  have htick := h.tick (dom.tick + 1)
  dsimp only at heq
  split at heq
  · cases heq
    exact htick
  rename_i halloc
  obtain ⟨err, hadd, hwhy⟩ | ⟨s, c, hregEp, hget, hadd⟩ :=
    rdsCacheAddRegion_cases env htick.numbered r
  · rw [hadd] at heq
    cases heq
    refine htick.abandonRefused (fun hs => ?_) r
    -- under `strict` only a domain without a registering endpoint fails here
    obtain hnone | hlong | ⟨e, hrefused⟩ := hwhy
    · exact hnone
    · exact absurd (hlen hs) (Nat.not_le.mpr hlong)
    · obtain hnone | ⟨c, hok⟩ := hgrant hs (by simpa using halloc)
      · exact hnone
      · rw [show env.getMr dom.kcalls r = _ from hrefused] at hok
        cases hok
  rw [hadd] at heq
  dsimp only at heq
  have hfresh : strict → isLive dom.kcalls c = false := fun hs => henv hs _ _ _ hget
  have hentry := htick.withEntry (s := s) (r := r) (c := c) hfresh
  have habandon := htick.abandon hregEp (r := r) (c := c) hfresh
  split at heq
  · cases heq
    exact habandon _
  split at heq
  · cases heq
    exact habandon _
  split at heq
  · cases heq
    exact hentry.tick _
  · cases heq
    refine (hentry.tick (dom.tick + 1 + 1)).recache
      (hentry.cache.enter (Multiset.mem_cons_self _ _)) ?_
    unfold MrCache.modify
    rw [List.map_map]
    refine List.map_congr_left (fun x _ => ?_)
    dsimp only [Function.comp_apply]
    split <;> rfl

end Domain.Custody

/-! ## Searching -/

/-- **No registration that a search makes for the cache is refused.** The rounds of the
search are followed as the code runs them. -/
def SearchGranted (env : Env) : ℕ → Domain → Region → Prop
  | 0, _, _ => True
  | fuel + 1, dom, r =>
    cacheHit env (cachePrune dom) r = none →
      (env.alloc (cachePurge (cachePrune dom) r).tick = true →
        env.Grants (cachePurge (cachePrune dom) r) r)
      ∧ match utilMrCacheCreate env (cachePurge (cachePrune dom) r) r with
        | (_, .ok _) => True
        | (dom, .error err) =>
          if err = fiEagain then SearchGranted env fuel dom r
          else match ofiMrCacheFlush dom true with
            | (dom, true) => SearchGranted env fuel dom r
            | (_, false) => True

/-- No registration made for the cache while chunks are registered is refused. -/
def ChunksGranted (env : Env) : List Region → Domain → Prop
  | [], _ => True
  | r :: rs, dom =>
    SearchGranted env env.searchRounds dom r
      ∧ match rdsRegCacheGet env dom r with
        | (_, .error _) => True
        | (dom, .ok _) => ChunksGranted env rs dom

theorem mem_tree_of_cacheHit {env : Env} {dom : Domain} {r : Region} {e : CacheEntry}
    (h : cacheHit env dom r = some e) : e ∈ dom.cache.tree := by
  unfold cacheHit at h
  obtain ⟨hfind, -⟩ := Option.filter_eq_some_iff.mp h
  exact (List.mem_filter.mp (List.mem_of_getElem? hfind)).1

namespace Domain.Custody

variable {strict : Prop} {dom : Domain} {cached plain : Multiset ℕ}

/-- **A search** takes a reference to the entry it returns, or leaves everything held
as it was. -/
theorem searchLoop {env : Env} (henv : strict → env.FreshLive) {r : Region}
    (hlen : strict → r.len ≤ rdsKernelSegMax) (fuel : ℕ) (h : dom.Custody strict cached plain)
    (hgrant : strict → SearchGranted env fuel dom r) {dom' : Domain} {res : Except ℕ+ ℕ}
    (heq : ofiMrCacheSearchLoop env fuel dom r = (dom', res)) :
    match (motive := Except ℕ+ ℕ → Prop) res with
      | .error _ => dom'.Custody strict cached plain
      | .ok x => dom'.Custody strict (x ::ₘ cached) plain := by
  induction fuel generalizing dom with
  | zero =>
    cases heq
    exact h
  | succ fuel ih =>
    rw [ofiMrCacheSearchLoop] at heq
    have hprune := h.prune
    cases hhit : cacheHit env (cachePrune dom) r with
    | some e =>
      rw [hhit] at heq
      cases heq
      exact hprune.take (mem_tree_of_cacheHit hhit)
    | none =>
      rw [hhit] at heq
      dsimp only at heq
      have hpurge := hprune.purge r
      have hround : strict → _ := fun hs => hgrant hs hhit
      cases hres : utilMrCacheCreate env (cachePurge (cachePrune dom) r) r with
      | mk d res' =>
        have hd := hpurge.create henv hlen (fun hs => (hround hs).1) hres
        rw [hres] at heq hround
        cases res' with
        | ok x =>
          cases heq
          exact hd
        | error err =>
          dsimp only at heq hround hd
          by_cases hagain : err = fiEagain
          · rw [if_pos hagain] at heq hround
            exact ih hd (fun hs => (hround hs).2) heq
          rw [if_neg hagain] at heq hround
          have hflush := hd.flush true
          cases hflushed : ofiMrCacheFlush d true with
          | mk d' more =>
            rw [hflushed] at heq hround hflush
            cases more with
            | true => exact ih hflush (fun hs => (hround hs).2) heq
            | false =>
              cases heq
              exact hflush

/-- **`rds_reg_cache_get`** takes a reference to the entry whose cookie it returns. -/
theorem regCacheGet {env : Env} (henv : strict → env.FreshLive) {r : Region}
    (hlen : strict → r.len ≤ rdsKernelSegMax) (h : dom.Custody strict cached plain)
    (hgrant : strict → SearchGranted env env.searchRounds dom r) {dom' : Domain}
    {res : Except ℕ+ (UInt64 × ℕ)} (heq : rdsRegCacheGet env dom r = (dom', res)) :
    match (motive := Except ℕ+ (UInt64 × ℕ) → Prop) res with
      | .error _ => dom'.Custody strict cached plain
      | .ok x => dom'.Custody strict (x.2 ::ₘ cached) plain := by
  unfold rdsRegCacheGet ofiMrCacheSearch at heq
  split at heq
  · cases heq
    exact h
  have hsearch := searchLoop henv hlen env.searchRounds h hgrant rfl
  cases hres : ofiMrCacheSearchLoop env env.searchRounds dom r with
  | mk d res' =>
    rw [hres] at heq hsearch
    cases res' with
    | error e =>
      cases heq
      exact hsearch
    | ok x =>
      dsimp only at heq hsearch
      -- the entry is held, so it is there
      obtain ⟨e, hfind, -, -⟩ := hsearch.cache.find?_isSome (Multiset.mem_cons_self x cached)
      rw [hfind] at heq
      cases heq
      exact hsearch

/-! ### Registrations outside the cache -/

/-- **`rds_reg_internal`** makes a registration with its first holder, or none. -/
theorem regInternal {env : Env} (henv : strict → env.FreshLive)
    (h : dom.Custody strict cached plain) (sock : ℕ) (r : Region) {dom' : Domain}
    {res : Except ℕ+ RdsMr} (heq : rdsRegInternal env dom sock r = (dom', res)) :
    match (motive := Except ℕ+ RdsMr → Prop) res with
      | .error _ => dom'.Custody strict cached plain
      | .ok mr => dom'.Custody strict cached (mr.handle ::ₘ plain) := by
  unfold rdsRegInternal rdsKernelReg at heq
  by_cases hlen : rdsKernelSegMax < r.len
  · rw [if_pos hlen] at heq
    cases heq
    exact h
  rw [if_neg hlen] at heq
  cases hc : env.getMr dom.kcalls r with
  | error e =>
    rw [hc] at heq
    cases heq
    exact h
  | ok c =>
    rw [hc] at heq
    have hfresh : strict → isLive dom.kcalls c = false := fun hs => henv hs _ _ _ hc
    dsimp only at heq
    split at heq
    · cases heq
      refine ⟨h.cache.mono (Nat.le_succ _), h.mrs.add rfl rfl, fun hs => ?_⟩
      refine (h.owned hs).get (hfresh hs) ?_ sock
      unfold Domain.cookies
      rw [List.map_append, ← List.append_assoc]
      exact List.perm_append_singleton _ _
    · cases heq
      refine ⟨h.cache, h.mrs, fun hs => ?_⟩
      exact ((h.owned hs).get (hfresh hs) (List.Perm.refl _) sock).free (List.Perm.refl _) sock

/-- **A reference to a registration is given back.** -/
theorem mrPut {x : ℕ} (h : dom.Custody strict cached (x ::ₘ plain)) :
    (rdsMrPut dom x).Custody strict cached plain := by
  unfold rdsMrPut
  cases hfind : dom.mrs.find? (·.handle == x) with
  | none =>
    obtain ⟨m, hm, hmx⟩ := List.mem_map.mp (h.mrs.mem x (Multiset.mem_cons_self x plain))
    simpa [hmx] using List.find?_eq_none.mp hfind m hm
  | some mr =>
    have hmem : mr ∈ dom.mrs := List.mem_of_find?_eq_some hfind
    have hhandle : mr.handle = x := by simpa using List.find?_some hfind
    have href := h.mrs.refs mr hmem
    rw [hhandle, Multiset.count_cons_self] at href
    dsimp only
    split
    · rename_i hmore
      have hx : x ∈ plain := by
        refine Multiset.count_pos.mp ?_
        omega
      refine ⟨h.cache, h.mrs.decrement hx, fun hs => ?_⟩
      have hcookies : (dom.mrs.map (fun m => if m.handle = x then { m with ref := m.ref - 1 }
          else m)).map RdsMr.held = dom.mrs.map RdsMr.held := by
        rw [List.map_map]
        refine List.map_congr_left (fun m _ => ?_)
        dsimp only [Function.comp_apply]
        split <;> rfl
      have howned := h.owned hs
      unfold Domain.cookies at howned ⊢
      dsimp only
      rw [hcookies]
      exact howned
    · rename_i hlast
      have hx : x ∉ plain := by
        refine Multiset.count_eq_zero.mp ?_
        omega
      obtain ⟨l₁, l₂, hl, hfilter⟩ := List.filter_ne_of_nodup h.mrs.nodup hfind
      refine ⟨h.cache, h.mrs.remove hx, fun hs => (h.owned hs).free (r := mr.region) ?_ mr.sock⟩
      unfold Domain.cookies rdsKernelFree
      dsimp only
      rw [hfilter, hl, List.map_append, List.map_cons, List.map_append, ← List.append_assoc,
        ← List.append_assoc]
      exact List.perm_middle

end Domain.Custody

/-! ## Registering a message -/

/-- The handles a holder has in the cache, if it uses the cache. -/
def cachedPart (isCached : Bool) (hs : List ℕ) : Multiset ℕ := if isCached then hs else 0

/-- The handles a holder has outside the cache, if it does not use the cache. -/
def plainPart (isCached : Bool) (hs : List ℕ) : Multiset ℕ := if isCached then 0 else hs

@[simp] theorem cachedPart_nil (isCached : Bool) : cachedPart isCached [] = 0 := by
  cases isCached <;> rfl

@[simp] theorem plainPart_nil (isCached : Bool) : plainPart isCached [] = 0 := by
  cases isCached <;> rfl

theorem cachedPart_cons (isCached : Bool) (x : ℕ) (hs : List ℕ) :
    cachedPart isCached (x :: hs) = cachedPart isCached [x] + cachedPart isCached hs := by
  cases isCached <;> rfl

theorem plainPart_cons (isCached : Bool) (x : ℕ) (hs : List ℕ) :
    plainPart isCached (x :: hs) = plainPart isCached [x] + plainPart isCached hs := by
  cases isCached <;> rfl

theorem count_cachedPart (isCached : Bool) (hs : List ℕ) (x : ℕ) :
    (cachedPart isCached hs).count x = if isCached then hs.count x else 0 := by
  cases isCached with
  | true => exact Multiset.coe_count x hs
  | false => exact Multiset.count_zero x

theorem count_plainPart (isCached : Bool) (hs : List ℕ) (x : ℕ) :
    (plainPart isCached hs).count x = if isCached then 0 else hs.count x := by
  cases isCached with
  | true => exact Multiset.count_zero x
  | false => exact Multiset.coe_count x hs

namespace Domain.Custody

variable {strict : Prop} {dom : Domain} {cached plain : Multiset ℕ}

theorem regChunk {env : Env} (henv : strict → env.FreshLive) (sock : ℕ) (isCached : Bool)
    {r : Region} (hlen : strict → r.len ≤ rdsKernelSegMax) (h : dom.Custody strict cached plain)
    (hgrant : strict → isCached = true → SearchGranted env env.searchRounds dom r) {dom' : Domain}
    {res : Except ℕ+ (UInt64 × ℕ)} (heq : rdsRegChunk env dom sock isCached r = (dom', res)) :
    match (motive := Except ℕ+ (UInt64 × ℕ) → Prop) res with
      | .error _ => dom'.Custody strict cached plain
      | .ok x => dom'.Custody strict (cachedPart isCached [x.2] + cached)
          (plainPart isCached [x.2] + plain) := by
  cases isCached with
  | true =>
    have hget := regCacheGet henv hlen h (fun hs => hgrant hs rfl) heq
    cases res with
    | error e => exact hget
    | ok x =>
      dsimp only at hget ⊢
      rwa [show plainPart true [x.2] = 0 from rfl, zero_add]
  | false =>
    unfold rdsRegChunk at heq
    rw [if_neg Bool.false_ne_true] at heq
    cases hres : rdsRegInternal env dom sock r with
    | mk d res' =>
      rw [hres] at heq
      have hreg := regInternal henv h sock r hres
      cases res' with
      | error e =>
        cases heq
        exact hreg
      | ok mr =>
        cases heq
        dsimp only at hreg ⊢
        rwa [show cachedPart false [mr.handle] = 0 from rfl, zero_add]

/-- **The registration loop of a send** holds what it returns, whether it was stopped
or not. -/
theorem regChunks {env : Env} (henv : strict → env.FreshLive) (sock : ℕ) (isCached : Bool)
    (rs : List Region) (hlen : strict → ∀ r ∈ rs, r.len ≤ rdsKernelSegMax)
    (h : dom.Custody strict cached plain)
    (hgrant : strict → isCached = true → ChunksGranted env rs dom) :
    (rdsRegChunks env sock isCached rs dom).1.Custody strict
      (cachedPart isCached (rdsRegChunks env sock isCached rs dom).2.2.1 + cached)
      (plainPart isCached (rdsRegChunks env sock isCached rs dom).2.2.1 + plain) := by
  induction rs generalizing dom cached plain with
  | nil =>
    rw [rdsRegChunks]
    simpa using h
  | cons r rs ih =>
    rw [rdsRegChunks]
    cases hres : rdsRegChunk env dom sock isCached r with
    | mk d res =>
      have hchunk := regChunk henv sock isCached (fun hs => hlen hs r List.mem_cons_self) h
        (fun hs hc => (hgrant hs hc).1) hres
      cases res with
      | error e => simpa using hchunk
      | ok x =>
        obtain ⟨c, x⟩ := x
        dsimp only at hchunk ⊢
        have hrest := ih (fun hs r' hr' => hlen hs r' (List.mem_cons_of_mem r hr')) hchunk
          (fun hs hc => by
            subst hc
            have hgrants := (hgrant hs rfl).2
            rw [show rdsRegCacheGet env dom r = (d, .ok (c, x)) from hres] at hgrants
            exact hgrants)
        rw [cachedPart_cons, plainPart_cons, add_comm (cachedPart isCached [x]),
          add_comm (plainPart isCached [x]), add_assoc, add_assoc]
        exact hrest

/-- **What was registered is given back.** -/
theorem unregChunks (isCached : Bool) (hs : List ℕ)
    (h : dom.Custody strict (cachedPart isCached hs + cached) (plainPart isCached hs + plain)) :
    (rdsUnregChunks isCached dom hs).Custody strict cached plain := by
  cases isCached with
  | true =>
    unfold rdsUnregChunks
    rw [if_pos rfl]
    rw [show plainPart true hs = 0 from rfl, zero_add] at h
    induction hs generalizing dom with
    | nil => rwa [cachedPart_nil, zero_add] at h
    | cons x hs ih =>
      rw [show cachedPart true (x :: hs) = x ::ₘ cachedPart true hs from rfl,
        Multiset.cons_add] at h
      exact ih (cacheDelete h)
  | false =>
    unfold rdsUnregChunks
    rw [if_neg Bool.false_ne_true]
    rw [show cachedPart false hs = 0 from rfl, zero_add] at h
    induction hs generalizing dom with
    | nil => rwa [plainPart_nil, zero_add] at h
    | cons x hs ih =>
      rw [show plainPart false (x :: hs) = x ::ₘ plainPart false hs from rfl,
        Multiset.cons_add] at h
      exact ih (mrPut h)

/-- **An entry that is held survives** whatever replaces none. -/
theorem held_survives {d : Domain} {strict' : Prop} {cached' plain' : Multiset ℕ}
    (h : dom.Custody strict cached plain) (hd : d.Custody strict' cached' plain')
    (hrecalls : dom.Recalls d) {e : CacheEntry} (he : e ∈ dom.cache.entries)
    (hheld : e.handle ∈ cached') : ∃ e' ∈ d.cache.entries, e'.core = e.core := by
  obtain ⟨e', he', hhandle⟩ := List.mem_map.mp (hd.cache.mem e.handle hheld)
  -- the entry with that handle is the one it was
  obtain ⟨e₀, he₀, hcore⟩ := hrecalls.entries e' he' (hhandle ▸ h.numbered e he)
  have hsame : e₀ = e := List.inj_on_of_nodup_map h.cache.nodup he₀ he
    ((congrArg Prod.fst hcore).trans hhandle)
  exact ⟨e', he', hsame ▸ hcore.symm⟩

end Domain.Custody
