import RdsProv.Holders
import RdsProv.AllOrNothing
import RdsProv.Params

/-!
# Endpoints of one domain

A domain is shared: any number of endpoints register through it, and the application
registers windows of its own. A *host* is a domain with its open endpoints and the
handles of the windows; its actions are those of the endpoints, the opening, enabling
and closing of endpoints, registration by the application, and what happens to the
cache from outside.

An endpoint is named by its socket, which no endpoint had before it.

`Host.Kept` is the invariant of all runs: the counts of the domain are those of the
holders together, and each endpoint is metered. For a single endpoint it comes from
`Ep.Balanced.act`, where the other endpoints are among "whoever holds the rest".
-/

/-! ## Opening and closing -/

/-- `rds_ep_ctrl` with `FI_ENABLE`, once the bindings are found complete: the first
endpoint lends its socket to the domain. -/
def rdsEpEnable (dom : Domain) (sock : ℕ) : Domain :=
  { dom with regEp := if dom.regEp = none then some sock else dom.regEp }

/-- `rds_ep_ring_cleanup`. -/
def rdsEpRingCleanup (dom : Domain) (peers : List Peer) : Domain :=
  peers.foldl (fun dom p => rdsUnregChunks false dom p.mrHandles) dom

/-- The part of `rds_ep_flush_lists` that concerns registrations. -/
def rdsEpFlushLists (dom : Domain) (pending : List Pending) : Domain :=
  pending.foldl (fun dom p => rdsUnregChunks p.cached dom p.mrs) dom

/-- `rds_ep_close`, what it does to the domain. The reference count it looks at first is
never raised. -/
def rdsEpClose (dom : Domain) (ep : Ep) : Domain :=
  let dom := if dom.regEp = some ep.cfg.sock then { dom with regEp := none } else dom
  rdsEpFlushLists (rdsEpRingCleanup dom ep.peers) ep.pending

/-- `rds_mr_regattr` of one region. -/
def rdsMrRegattr (env : Env) (dom : Domain) (r : Region) : Domain × Except ℕ+ RdsMr :=
  match dom.regEp with
  | none => (dom, .error fiEopbadstate)
  | some sock =>
    match rdsRegInternal env dom sock r with
    | (dom, .error _) => (dom, .error fiEnomem)
    | (dom, .ok mr) => (dom, .ok mr)

/-! ## The machine -/

/-- An open endpoint, and whether it was enabled. -/
structure HostEp where
  ep : Ep
  enabled : Bool

/-- The endpoint as it acts on a domain. -/
def HostEp.on (e : HostEp) (dom : Domain) : Ep := { e.ep with domain := dom }

/-- A domain, its open endpoints and the application's windows. -/
structure Host where
  dom : Domain
  eps : List HostEp
  windows : List ℕ
  /-- History: the sockets of all endpoints opened so far. -/
  opened : List ℕ

/-- What can happen at a host. -/
inductive HostAct where
  | openEp (cfg : EpCfg)
  | enable (sock : ℕ)
  | close (sock : ℕ)
  /-- An endpoint acts. -/
  | ep (sock : ℕ) (a : EpAct)
  | mrReg (env : Env) (r : Region)
  | mrClose (handle : ℕ)
  /-- The memory monitor reports an unmapped range. -/
  | invalidate (r : Region)
  /-- The cache is flushed. -/
  | evict (flushLru : Bool)

namespace Host

/-- A domain without endpoints. -/
def init (cacheEnabled : Bool) (maxCnt maxSize : ℕ) : Host :=
  ⟨Domain.opened cacheEnabled none maxCnt maxSize, [], [], []⟩

/-- The open endpoint with a socket. -/
def find (h : Host) (sock : ℕ) : Option HostEp := h.eps.find? (·.ep.cfg.sock == sock)

/-- Change an endpoint. -/
def update (h : Host) (sock : ℕ) (e : HostEp) : List HostEp :=
  h.eps.modifyFirst (·.ep.cfg.sock == sock) (fun _ => e)

/-- One action. -/
def act (h : Host) : HostAct → Host
  | .openEp cfg =>
    { h with eps := h.eps ++ [⟨Ep.init cfg h.dom, false⟩], opened := h.opened ++ [cfg.sock] }
  | .enable sock =>
    match h.find sock with
    | none => h
    | some e =>
      { h with dom := rdsEpEnable h.dom sock, eps := h.update sock { e with enabled := true } }
  | .close sock =>
    match h.find sock with
    | none => h
    | some e =>
      { h with
        dom := rdsEpClose h.dom e.ep
        eps := h.eps.eraseP (·.ep.cfg.sock == sock) }
  | .ep sock a =>
    match h.find sock with
    | none => h
    | some e =>
      { h with
        dom := ((e.on h.dom).act a).domain
        eps := h.update sock { e with ep := (e.on h.dom).act a } }
  | .mrReg env r =>
    match rdsMrRegattr env h.dom r with
    | (dom, .error _) => { h with dom := dom }
    | (dom, .ok mr) => { h with dom := dom, windows := mr.handle :: h.windows }
  | .mrClose x => { h with dom := rdsMrPut h.dom x, windows := h.windows.erase x }
  | .invalidate r => { h with dom := ofiMrCacheNotify h.dom r }
  | .evict flushLru => { h with dom := (ofiMrCacheFlush h.dom flushLru).1 }

/-- What is possible. An endpoint is opened with accepted parameters and a socket of its
own, a window is closed once, an operation is notified once; and the deferred queue is
only walked while ids have not come round. -/
def Admits (h : Host) : HostAct → Prop
  | .openEp cfg => cfg.sock ∉ h.opened ∧ ∃ p, (rdsIni p).Configures cfg
  | .ep sock a => ∃ e, h.find sock = some e ∧ e.ep.Admits a ∧ (∀ dom, a ≠ .shareDomain dom)
      ∧ ∀ env, a = .retry env → e.ep.idsGiven < 2 ^ 64
  | .mrClose x => x ∈ h.windows
  | .enable _ | .close _ | .mrReg .. | .invalidate _ | .evict _ => True

/-- The cached handles the endpoints hold. -/
def cachedHeld (h : Host) : Multiset ℕ := (h.eps.map (·.ep.cachedHeld)).sum

/-- The other handles the endpoints and the application hold. -/
def plainHeld (h : Host) : Multiset ℕ := (h.eps.map (·.ep.plainHeld)).sum + (h.windows : Multiset ℕ)

/-- **What every run keeps.** -/
structure Kept (h : Host) : Prop where
  custody : h.dom.Custody False h.cachedHeld h.plainHeld
  metered : ∀ e ∈ h.eps, e.ep.Metered
  sound : ∀ e ∈ h.eps, e.ep.idsGiven < 2 ^ 64 → e.ep.Sound

end Host

/-! ## Releasing everything -/

namespace Domain.Custody

variable {dom : Domain} {cached plain : Multiset ℕ}

/-- Which endpoint lends its socket is of no concern to the counts. -/
theorem regEp (h : dom.Custody False cached plain) (r : Option ℕ) :
    Domain.Custody False { dom with regEp := r } cached plain := ⟨h.cache, h.mrs, h.owned⟩

theorem ringCleanup (peers : List Peer)
    (h : dom.Custody False cached ((peers.flatMap Peer.mrHandles : List ℕ) + plain)) :
    (rdsEpRingCleanup dom peers).Custody False cached plain := by
  unfold rdsEpRingCleanup
  induction peers generalizing dom with
  | nil =>
    rw [List.flatMap_nil, Multiset.coe_nil, zero_add] at h
    exact h
  | cons p peers ih =>
    rw [List.flatMap_cons, ← Multiset.coe_add, add_assoc] at h
    refine ih (unregChunks false p.mrHandles ?_)
    rw [show cachedPart false p.mrHandles = 0 from rfl, zero_add]
    exact h

theorem flushLists (pending : List Pending)
    (h : dom.Custody False (cachedSum (pending.filterMap Pending.hold) + cached)
      (plainSum (pending.filterMap Pending.hold) + plain)) :
    (rdsEpFlushLists dom pending).Custody False cached plain := by
  unfold rdsEpFlushLists
  induction pending generalizing dom with
  | nil =>
    rw [List.filterMap_nil, show cachedSum [] = 0 from rfl, show plainSum [] = 0 from rfl, zero_add,
      zero_add] at h
    exact h
  | cons p pending ih =>
    obtain ⟨hcached, hplain⟩ := sums_hold_cons p pending
    rw [hcached, hplain, add_assoc, add_assoc] at h
    exact ih (unregChunks p.cached p.mrs h)

/-- **Closing an endpoint gives back all it held.** -/
theorem close {ep : Ep} (h : dom.Custody False (ep.cachedHeld + cached) (ep.plainHeld + plain)) :
    (rdsEpClose dom ep).Custody False cached plain := by
  unfold Ep.cachedHeld Ep.plainHeld at h
  have hreg : Domain.Custody False
      (if dom.regEp = some ep.cfg.sock then { dom with regEp := none } else dom)
      (cachedSum ep.holds + cached) (ep.ringHeld + plainSum ep.holds + plain) := by
    split
    · exact h.regEp none
    · exact h
  unfold rdsEpClose
  dsimp only
  rw [add_assoc] at hreg
  exact flushLists ep.pending (ringCleanup ep.peers hreg)

theorem mrRegattr {env : Env} (h : dom.Custody False cached plain) (r : Region) {dom' : Domain}
    {res : Except ℕ+ RdsMr} (heq : rdsMrRegattr env dom r = (dom', res)) :
    match (motive := Except ℕ+ RdsMr → Prop) res with
      | .error _ => dom'.Custody False cached plain
      | .ok mr => dom'.Custody False cached (mr.handle ::ₘ plain) := by
  unfold rdsMrRegattr at heq
  cases hregEp : dom.regEp with
  | none =>
    rw [hregEp] at heq
    cases heq
    exact h
  | some sock =>
    rw [hregEp] at heq
    dsimp only at heq
    cases hres : rdsRegInternal env dom sock r with
    | mk d res' =>
      rw [hres] at heq
      have hreg := Domain.Custody.regInternal (fun hf => hf.elim) h sock r hres
      cases res' with
      | error e =>
        cases heq
        exact hreg
      | ok mr =>
        cases heq
        exact hreg

end Domain.Custody

/-! ## Every run keeps the counts -/

namespace Host

variable {h : Host}

theorem find_split {sock : ℕ} {e : HostEp} (hfind : h.find sock = some e) :
    ∃ l₁ l₂, h.eps = l₁ ++ e :: l₂ ∧ e.ep.cfg.sock = sock
      ∧ h.eps.eraseP (·.ep.cfg.sock == sock) = l₁ ++ l₂
      ∧ ∀ e', h.update sock e' = l₁ ++ e' :: l₂ := by
  obtain ⟨l₁, l₂, hl, -, hsock, herase, hmod⟩ := List.find?_split hfind
  exact ⟨l₁, l₂, hl, by simpa using hsock, herase, fun e' => hmod _⟩

/-- The sums around one endpoint. -/
theorem sums_split {l₁ l₂ : List HostEp} {e : HostEp} (heps : h.eps = l₁ ++ e :: l₂) :
    h.cachedHeld = e.ep.cachedHeld + ((l₁ ++ l₂).map (·.ep.cachedHeld)).sum
      ∧ h.plainHeld = e.ep.plainHeld
        + (((l₁ ++ l₂).map (·.ep.plainHeld)).sum + (h.windows : Multiset ℕ)) := by
  unfold cachedHeld plainHeld
  rw [heps]
  simp only [List.map_append, List.map_cons, List.sum_append, List.sum_cons]
  constructor
  · abel
  · abel

/-- The books of an endpoint do not mention its domain. -/
theorem sound_on {e : HostEp} (hs : e.ep.Sound) (dom : Domain) : (e.on dom).Sound :=
  ⟨hs.ok, hs.history, hs.segs⟩

/-- Changing one endpoint and the domain in step keeps the counts. -/
theorem Kept.update (hk : h.Kept) {sock : ℕ} {e f : HostEp} (hfind : h.find sock = some e)
    (hm : f.ep.Metered) (hs : f.ep.idsGiven < 2 ^ 64 → f.ep.Sound) {dom : Domain}
    (hcust : ∀ cached plain,
      h.dom.Custody False (e.ep.cachedHeld + cached) (e.ep.plainHeld + plain) →
      dom.Custody False (f.ep.cachedHeld + cached) (f.ep.plainHeld + plain)) :
    Host.Kept { h with dom := dom, eps := h.update sock f } := by
  obtain ⟨l₁, l₂, heps, -, -, hupd⟩ := find_split hfind
  have hmem : ∀ x ∈ h.update sock f, x ∈ h.eps ∨ x = f := by
    intro x hx
    rw [hupd, List.mem_append, List.mem_cons] at hx
    rw [heps]
    obtain hx | rfl | hx := hx
    · exact .inl (List.mem_append_left _ hx)
    · exact .inr rfl
    · exact .inl (List.mem_append_right _ (List.mem_cons_of_mem _ hx))
  refine ⟨?_, fun x hx => ?_, fun x hx hids => ?_⟩
  · have hsums := sums_split heps
    have hsums' := sums_split (h := { h with dom := dom, eps := h.update sock f }) (hupd f)
    rw [hsums'.1, hsums'.2]
    refine hcust _ _ ?_
    rw [← hsums.1, ← hsums.2]
    exact hk.custody
  · obtain hx | rfl := hmem x hx
    · exact hk.metered x hx
    · exact hm
  · obtain hx | rfl := hmem x hx
    · exact hk.sound x hx hids
    · exact hs hids

theorem Kept.openEp (hk : h.Kept) {cfg : EpCfg} {p : Params} (hcfg : (rdsIni p).Configures cfg) :
    (h.act (.openEp cfg)).Kept := by
  have hmem : ∀ e ∈ (h.act (.openEp cfg)).eps, e ∈ h.eps ∨ e = ⟨Ep.init cfg h.dom, false⟩ :=
    fun e he => (List.mem_append.mp he).imp_right List.mem_singleton.mp
  refine ⟨?_, fun e he => ?_, fun e he hids => ?_⟩
  · have hcached : (h.act (.openEp cfg)).cachedHeld = h.cachedHeld := by
      unfold cachedHeld Host.act
      rw [List.map_append, List.sum_append]
      exact add_zero _
    have hplain : (h.act (.openEp cfg)).plainHeld = h.plainHeld := by
      unfold plainHeld Host.act
      rw [List.map_append, List.sum_append]
      exact congrArg (· + (h.windows : Multiset ℕ)) (add_zero _)
    rw [hcached, hplain]
    exact hk.custody
  · obtain he | rfl := hmem e he
    · exact hk.metered e he
    · have hmax := rdsIni_rndzvMaxInflight_lt p
      refine ⟨by simp [Ep.holds, Ep.init], rfl, Nat.zero_le _, ?_⟩
      show cfg.rndzvMaxInflight < _
      rw [hcfg.rndzvMaxInflight]
      exact hmax.trans (by decide)
  · obtain he | rfl := hmem e he
    · exact hk.sound e he hids
    · exact .init cfg h.dom

theorem Kept.enable (hk : h.Kept) (sock : ℕ) : (h.act (.enable sock)).Kept := by
  cases hfind : h.find sock with
  | none =>
    have hact : h.act (.enable sock) = h := by
      rw [Host.act, hfind]
    rw [hact]
    exact hk
  | some e =>
    have hact : h.act (.enable sock) = { h with
        dom := rdsEpEnable h.dom sock, eps := h.update sock { e with enabled := true } } := by
      rw [Host.act, hfind]
    obtain ⟨l₁, l₂, heps, -⟩ := find_split hfind
    have he : e ∈ h.eps := by
      rw [heps]
      exact List.mem_append_right _ List.mem_cons_self
    rw [hact]
    exact hk.update (f := { e with enabled := true }) hfind (hk.metered e he) (hk.sound e he)
      (fun cached plain hc => hc.regEp _)

theorem Kept.close (hk : h.Kept) (sock : ℕ) : (h.act (.close sock)).Kept := by
  cases hfind : h.find sock with
  | none =>
    have hact : h.act (.close sock) = h := by
      rw [Host.act, hfind]
    rw [hact]
    exact hk
  | some e =>
    have hact : h.act (.close sock) = { h with
        dom := rdsEpClose h.dom e.ep, eps := h.eps.eraseP (·.ep.cfg.sock == sock) } := by
      rw [Host.act, hfind]
    rw [hact]
    obtain ⟨l₁, l₂, heps, -, herase, -⟩ := find_split hfind
    have hsub : ∀ x ∈ h.eps.eraseP (·.ep.cfg.sock == sock), x ∈ h.eps :=
      fun x hx => List.eraseP_subset hx
    refine ⟨?_, fun x hx => hk.metered x (hsub x hx), fun x hx => hk.sound x (hsub x hx)⟩
    have hsums := sums_split heps
    have hcust := hk.custody
    rw [hsums.1, hsums.2] at hcust
    unfold cachedHeld plainHeld
    rw [herase]
    exact hcust.close

/-- **An endpoint acts.** -/
theorem Kept.ep (hk : h.Kept) {sock : ℕ} {a : EpAct} (hadm : h.Admits (.ep sock a)) :
    (h.act (.ep sock a)).Kept := by
  obtain ⟨e, hfind, hadm, hown, hids⟩ := hadm
  have hact : h.act (.ep sock a) = { h with
      dom := ((e.on h.dom).act a).domain
      eps := h.update sock { e with ep := (e.on h.dom).act a } } := by
    rw [Host.act, hfind]
  obtain ⟨l₁, l₂, heps, -⟩ := find_split hfind
  have he : e ∈ h.eps := by
    rw [heps]
    exact List.mem_append_right _ List.mem_cons_self
  have hm : (e.on h.dom).Metered := (hk.metered e he).congr rfl rfl rfl
  have hbal : (e.on h.dom).Balanced ((e.on h.dom).act a) := .act hown (fun env henv =>
    (sound_on (hk.sound e he (hids env henv)) h.dom).readsIdle hm)
  obtain ⟨hm', hcust'⟩ := hbal hm
  rw [hact]
  refine hk.update (f := { e with ep := (e.on h.dom).act a }) hfind hm' (fun hlt => ?_) hcust'
  have hle : e.ep.idsGiven ≤ ((e.on h.dom).act a).idsGiven :=
    (Ep.MatchStep.act (e.on h.dom) a).idsGiven_le
  exact (sound_on (hk.sound e he (hle.trans_lt hlt)) h.dom).act hadm hlt

theorem Kept.mrReg (hk : h.Kept) (env : Env) (r : Region) : (h.act (.mrReg env r)).Kept := by
  cases hres : rdsMrRegattr env h.dom r with
  | mk d res =>
    have hreg := hk.custody.mrRegattr r hres
    cases res with
    | error e =>
      have hact : h.act (.mrReg env r) = { h with dom := d } := by
        rw [Host.act, hres]
      rw [hact]
      exact ⟨hreg, hk.metered, hk.sound⟩
    | ok mr =>
      have hact : h.act (.mrReg env r) = { h with
          dom := d, windows := mr.handle :: h.windows } := by
        rw [Host.act, hres]
      rw [hact]
      refine ⟨?_, hk.metered, hk.sound⟩
      have hplain : Host.plainHeld { h with dom := d, windows := mr.handle :: h.windows }
          = mr.handle ::ₘ h.plainHeld := by
        unfold plainHeld
        rw [← Multiset.cons_coe, Multiset.add_cons]
      rw [hplain]
      exact hreg

theorem Kept.mrClose (hk : h.Kept) {x : ℕ} (hx : x ∈ h.windows) : (h.act (.mrClose x)).Kept := by
  refine ⟨Domain.Custody.mrPut (x := x) ?_, hk.metered, hk.sound⟩
  have hplain : h.plainHeld = x ::ₘ (h.act (.mrClose x)).plainHeld := by
    unfold plainHeld Host.act
    rw [← Multiset.add_cons, Multiset.cons_coe]
    congr 1
    exact Multiset.coe_eq_coe.mpr (List.perm_cons_erase hx)
  rw [← hplain]
  exact hk.custody

/-- **One action keeps the counts.** -/
theorem Kept.act (hk : h.Kept) {a : HostAct} (hadm : h.Admits a) : (h.act a).Kept := by
  cases a with
  | openEp cfg =>
    obtain ⟨-, p, hcfg⟩ := hadm
    exact hk.openEp hcfg
  | enable sock => exact hk.enable sock
  | close sock => exact hk.close sock
  | ep sock a => exact hk.ep hadm
  | mrReg env r => exact hk.mrReg env r
  | mrClose x => exact hk.mrClose hadm
  | invalidate r => exact ⟨hk.custody.notify r, hk.metered, hk.sound⟩
  | evict flushLru => exact ⟨hk.custody.flush flushLru, hk.metered, hk.sound⟩

/-- The host a run leads to. -/
def after (cacheEnabled : Bool) (maxCnt maxSize : ℕ) (acts : List HostAct) : Host :=
  acts.foldl Host.act (Host.init cacheEnabled maxCnt maxSize)

/-- A run of a host from the opening of its domain. -/
def Runs (cacheEnabled : Bool) (maxCnt maxSize : ℕ) (acts : List HostAct) : Prop :=
  Along Host.act Host.Admits (Host.init cacheEnabled maxCnt maxSize) acts

/-- **Every run keeps the counts.** -/
theorem Kept.after {cacheEnabled : Bool} {maxCnt maxSize : ℕ} {acts : List HostAct}
    (hrun : Runs cacheEnabled maxCnt maxSize acts) :
    (Host.after cacheEnabled maxCnt maxSize acts).Kept := by
  have hinit : (Host.init cacheEnabled maxCnt maxSize).Kept :=
    ⟨.opened cacheEnabled none maxCnt maxSize, fun _ h => absurd h List.not_mem_nil,
      fun _ h => absurd h List.not_mem_nil⟩
  exact Along.invariant (fun h a hk hadm => hk.act hadm) hinit hrun

end Host
