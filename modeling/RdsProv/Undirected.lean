import RdsProv.AddressVector
import RdsProv.Blind
import RdsProv.Lib.FirstMatch

/-!
# Receives that name a source nobody asked for

An endpoint without `FI_DIRECTED_RECV` is to ignore the source a receive names. The provider
does not: both scans compare it, whatever the capabilities are. Two runs that differ only in
the sources their receives name may then pair differently.

They do not, as long as nobody sends who could tell. A source argument matters only through
`rds_addr_match`, so that two arguments that match the same senders are as good as each
other; and nothing else looks at them (`Ep.blind`). `source_ignored_iff` says that this is
exact: the runs agree, whatever happens in them, if and only if the arguments that differ
match the same of those who send.
-/

/-! ## Endpoints that differ in the sources their receives name -/

section Alike

variable {ρ : UInt64 → UInt64 → Prop}

/-- Two receives that differ in the source they name at most. -/
def RxEntry.Alike (ρ : UInt64 → UInt64 → Prop) (r r' : RxEntry) : Prop :=
  r'.blind = r.blind ∧ (r'.addr = r.addr ∨ ρ r.addr r'.addr)

/-- The arguments that differ match a source alike. -/
def MatchAlike (ρ : UInt64 → UInt64 → Prop) (src : UInt64) : Prop :=
  ∀ a a', ρ a a' → rdsAddrMatch a' src = rdsAddrMatch a src

/-- Receives that are alike take the messages of a source that is matched alike. -/
theorem RxEntry.Alike.matches {r r' : RxEntry} (h : r.Alike ρ r') {src : UInt64}
    (hsrc : MatchAlike ρ src) (k : Bool) (tag : UInt64) :
    rdsMatches k r src tag = rdsMatches k r' src tag := by
  have htag : r'.tag = r.tag := congrArg (·.tag) h.1
  have hignore : r'.ignore = r.ignore := congrArg (·.ignore) h.1
  have haddr : rdsAddrMatch r'.addr src = rdsAddrMatch r.addr src := by
    obtain heq | hρ := h.2
    · rw [heq]
    · exact hsrc _ _ hρ
  rw [rdsMatches, rdsMatches, htag, hignore, haddr]

/-- Lists of such receives are the same but for the sources. -/
theorem RxEntry.Alike.map_blind {l l' : List RxEntry}
    (h : List.Forall₂ (RxEntry.Alike ρ) l l') : l'.map RxEntry.blind = l.map RxEntry.blind := by
  induction h with
  | nil => rfl
  | cons hr _ ih => rw [List.map_cons, List.map_cons, hr.1, ih]

namespace Ep

/-- **Two endpoints that differ in the sources their receives name at most**, and whose
unexpected messages come from sources that are matched alike. -/
structure Alike (ρ : UInt64 → UInt64 → Prop) (ep ep' : Ep) : Prop where
  blind : ep'.blind = ep.blind
  posted : ∀ k, List.Forall₂ (RxEntry.Alike ρ) (ep.posted k) (ep'.posted k)
  unexp : ∀ k, ∀ m ∈ ep.unexp k, MatchAlike ρ m.addr

namespace Alike

variable {ep ep' : Ep}

/-- A step that leaves the lists alone and does not look at the sources. -/
theorem quiet (h : ep.Alike ρ ep') {f : Ep → Ep} (hf : ∀ e : Ep, f e.blind = (f e).blind)
    (hun : ∀ e : Ep, e.Unmatched (f e)) : (f ep).Alike ρ (f ep') where
  blind := by rw [← hf, ← hf, h.blind]
  posted k := by
    rw [(hun ep).posted, (hun ep').posted]
    exact h.posted k
  unexp k := by
    rw [(hun ep).unexp]
    exact h.unexp k

/-- The same for a call. -/
theorem call {α : Type} (h : ep.Alike ρ ep') {f : Ep → Ep × α}
    (hf : ∀ e : Ep, f e.blind = blinded (f e)) (hun : ∀ e : Ep, e.Unmatched (f e).1) :
    (f ep).1.Alike ρ (f ep').1 :=
  h.quiet (fun e => congrArg Prod.fst (hf e)) hun

theorem peerFind (h : ep.Alike ρ ep') (addr : UInt64) :
    rdsPeerFind ep' addr = rdsPeerFind ep addr := by
  have hpeers : ep'.peers = ep.peers := congrArg (·.peers) h.blind
  rw [rdsPeerFind, rdsPeerFind, hpeers]

theorem pendingFind (h : ep.Alike ρ ep') (id : UInt64) :
    rdsPendingFind ep' id = rdsPendingFind ep id := by
  have hpending : ep'.pending = ep.pending := congrArg (·.pending) h.blind
  rw [rdsPendingFind, rdsPendingFind, hpending]

/-! ### A message arrives -/

/-- The lists with an entry of one of them changed. -/
theorem forall₂_update (h : ep.Alike ρ ep') {k : Bool} {l l' : List RxEntry}
    (hl : List.Forall₂ (RxEntry.Alike ρ) l l') (j : Bool) :
    List.Forall₂ (RxEntry.Alike ρ) (Function.update ep.posted k l j)
      (Function.update ep'.posted k l' j) := by
  by_cases hj : j = k
  · rw [hj, Function.update_self, Function.update_self]
    exact hl
  · rw [Function.update_of_ne hj, Function.update_of_ne hj]
    exact h.posted j

/-- The endpoints with other receives posted. -/
theorem blind_posted (h : ep.Alike ρ ep') {posted posted' : Bool → List RxEntry}
    (hp : ∀ k, List.Forall₂ (RxEntry.Alike ρ) (posted k) (posted' k)) :
    { ep' with posted := posted' }.blind = { ep with posted := posted }.blind := by
  have hmap : (fun k => (posted' k).map RxEntry.blind) = fun k => (posted k).map RxEntry.blind := by
    ext1 k
    exact RxEntry.Alike.map_blind (hp k)
  exact congrArg₂ (fun (e : Ep) p => { e with posted := p }) h.blind hmap

/-- **A message meets receives that are alike.** -/
theorem handleMessage (h : ep.Alike ρ ep') (env : Env) {m : Unexp} (hm : MatchAlike ρ m.addr) :
    (rdsHandleMessage env ep m).Alike ρ (rdsHandleMessage env ep' m) := by
  obtain ⟨hnone, hnone'⟩ | ⟨r, r', hr, hfind, hfind', herase⟩ :=
    List.Forall₂.find?_eraseP (p := fun r => rdsMatches m.hdr.tagged r m.addr m.hdr.tag)
      (q := fun r => rdsMatches m.hdr.tagged r m.addr m.hdr.tag)
      (fun r r' hr => hr.matches hm m.hdr.tagged m.hdr.tag) (h.posted m.hdr.tagged)
  · have hblind := congrArg (fun e : Ep => rdsEnqueueUnexp env
      { e with arrivals := e.arrivals + 1 } m m.hdr.tagged) h.blind
    have hkept {e : Ep} (hfind : (e.posted m.hdr.tagged).find?
        (fun r => rdsMatches m.hdr.tagged r m.addr m.hdr.tag) = none) :
        (rdsHandleMessage env e m).posted = e.posted
          ∧ ∀ k, ∀ m' ∈ (rdsHandleMessage env e m).unexp k, m' ∈ e.unexp k ∨ m' = m := by
      cases Meets.handleMessage env e m with
      | lost hun => exact ⟨hun.posted, fun k m' hm' => .inl (by rwa [hun.unexp] at hm')⟩
      | taken r hsome _ => cases hfind.symm.trans hsome
      | queued _ hun =>
        refine ⟨hun.posted, fun k m' hm' => ?_⟩
        rw [hun.unexp] at hm'
        exact (mem_update_append hm').imp_right (·.2)
    refine ⟨?_, fun k => ?_, fun k m' hm' => ?_⟩
    · rw [rdsHandleMessage_none env hnone, rdsHandleMessage_none env hnone', ← blind_enqueueUnexp,
        ← blind_enqueueUnexp]
      exact hblind
    · rw [(hkept hnone).1, (hkept hnone').1]
      exact h.posted k
    · obtain hold | rfl := (hkept hnone).2 k m' hm'
      · exact h.unexp k m' hold
      · exact hm
  · have hun := Unmatched.deliver env { ep with
      arrivals := ep.arrivals + 1
      posted := Function.update ep.posted m.hdr.tagged ((ep.posted m.hdr.tagged).eraseP
        (fun rx => rdsMatches m.hdr.tagged rx m.addr m.hdr.tag)) } r m
    have hun' := Unmatched.deliver env { ep' with
      arrivals := ep'.arrivals + 1
      posted := Function.update ep'.posted m.hdr.tagged ((ep'.posted m.hdr.tagged).eraseP
        (fun rx => rdsMatches m.hdr.tagged rx m.addr m.hdr.tag)) } r' m
    rw [rdsHandleMessage_found env hfind, rdsHandleMessage_found env hfind']
    refine ⟨?_, fun k => ?_, fun k m' hm' => ?_⟩
    · rw [← blind_deliver, ← blind_deliver, hr.1]
      have hblind := congrArg (fun e : Ep => { e with arrivals := e.arrivals + 1 })
        (h.blind_posted (h.forall₂_update (k := m.hdr.tagged) herase))
      exact congrArg (fun e => rdsDeliver env e r.blind m) hblind
    · rw [hun.posted, hun'.posted]
      exact h.forall₂_update herase k
    · rw [hun.unexp] at hm'
      exact h.unexp k m' hm'

theorem handleInbound (h : ep.Alike ρ ep') (env : Env) (hdr : Hdr) (payload : List UInt8)
    (src : SockAddr) {srcFi : UInt64} (hsrc : MatchAlike ρ srcFi) :
    (rdsHandleInbound env ep hdr payload src srcFi).Alike ρ
      (rdsHandleInbound env ep' hdr payload src srcFi) := by
  have harrivals : ep'.arrivals = ep.arrivals := congrArg (·.arrivals) h.blind
  unfold rdsHandleInbound
  rw [h.pendingFind, harrivals]
  split
  · exact h
  split
  · split
    · exact h
    · rename_i p _
      split
      · rename_i htype
        exact h.quiet (fun e => blind_pendingComplete e p)
          (fun e => .pendingComplete e (by rw [htype]; decide))
      · exact h
  split
  · exact h.quiet (fun e => blind_ringHandleCtrl env e hdr payload srcFi)
      (fun e => .of_outer (rdsRingHandleCtrl_outer env e hdr payload srcFi))
  split
  · exact h
  · exact h.handleMessage env hsrc

theorem recvDgram (h : ep.Alike ρ ep') (env : Env) (src : SockAddr) (bytes : List UInt8)
    (hsrc : MatchAlike ρ (ofiIpAvGetFiAddr ep.cfg src)) :
    (rdsRecvDgram env ep src bytes).Alike ρ (rdsRecvDgram env ep' src bytes) := by
  have hcfg : ep'.cfg = ep.cfg := congrArg (·.cfg) h.blind
  unfold rdsRecvDgram
  rw [hcfg]
  split
  · exact h
  · exact h.handleInbound env _ _ src hsrc

theorem ringDeliver (h : ep.Alike ρ ep') (env : Env) (sa : SockAddr) {addr : UInt64}
    (slot : RingSlot) (haddr : MatchAlike ρ addr) :
    (rdsRingDeliver env ep sa addr slot).Alike ρ (rdsRingDeliver env ep' sa addr slot) := by
  unfold rdsRingDeliver
  dsimp only
  split
  · exact h.handleInbound env _ _ sa haddr
  split
  · exact h
  · exact h.handleInbound env _ _ sa haddr

/-- The slot is passed after its delivery. -/
theorem ringPollSlot (h : ep.Alike ρ ep') (env : Env) (addr : UInt64)
    (haddr : ∀ p, rdsPeerFind ep addr = some p → MatchAlike ρ p.addr) :
    ((rdsRingPollSlot env ep addr).getD ep).Alike ρ ((rdsRingPollSlot env ep' addr).getD ep') := by
  have hcfg : ep'.cfg = ep.cfg := congrArg (·.cfg) h.blind
  unfold rdsRingPollSlot
  rw [hcfg, h.peerFind]
  cases hp : rdsPeerFind ep addr with
  | none => exact h
  | some p =>
    dsimp only
    cases hslot : p.nextSlot ep.cfg.geom.slots with
    | none => exact h
    | some slot =>
      have hack := h.quiet (f := fun e => e.setPeer (p.absorbAck slot.ack)) (fun _ => rfl)
        (fun e => .of_outer (outer_setPeer e _))
      have hdeliver := hack.ringDeliver env p.sa slot (haddr p hp)
      dsimp only at hdeliver ⊢
      generalize rdsRingDeliver env (ep.setPeer _) p.sa p.addr slot = e at hdeliver ⊢
      generalize rdsRingDeliver env (ep'.setPeer _) p.sa p.addr slot = e' at hdeliver ⊢
      rw [hdeliver.peerFind]
      cases rdsPeerFind e addr with
      | none => exact hdeliver
      | some q =>
        dsimp only [Option.getD_some]
        have hpass := hdeliver.quiet (f := fun e => e.setPeer { q with rxHead := q.rxHead + 1 })
          (fun _ => rfl) (fun e => .of_outer (outer_setPeer e _))
        split
        · exact hpass.quiet (fun e => blind_ringReturnCredit env e _)
            (fun e => .of_outer (rdsRingReturnCredit_outer env e _))
        · exact hpass

/-! ### A receive is posted or withdrawn -/

/-- **Receives that are alike meet the same messages.** -/
theorem postRecv (h : ep.Alike ρ ep') (env : Env) (iov : List Iovec) {addr addr' : UInt64}
    (haddr : addr' = addr ∨ ρ addr addr') (tag ignore : UInt64) (context : ℕ) (flags : UInt64)
    (tagged : Bool) :
    (rdsPostRecv env ep iov addr tag ignore context flags tagged).1.Alike ρ
      (rdsPostRecv env ep' iov addr' tag ignore context flags tagged).1 := by
  have hunexp : ep'.unexp = ep.unexp := congrArg (·.unexp) h.blind
  have hpostings : ep'.postings = ep.postings := congrArg (·.postings) h.blind
  have halloc : env.alloc ep'.tick = env.alloc ep.tick := congrArg (env.alloc ·.tick) h.blind
  unfold rdsPostRecv
  split
  · exact h
  dsimp only
  generalize hrx : (⟨context, iov, ofiTotalIovLen iov, tag, ignore, addr,
    flags ||| (if tagged then fiTagged else 0), ep.postings⟩ : RxEntry) = rx
  generalize hrx' : (⟨context, iov, ofiTotalIovLen iov, tag, ignore, addr',
    flags ||| (if tagged then fiTagged else 0), ep'.postings⟩ : RxEntry) = rx'
  have hr : rx.Alike ρ rx' := by
    rw [← hrx, ← hrx', hpostings]
    exact ⟨rfl, haddr⟩
  -- both scan the same messages, which are matched alike
  have hsame : List.Forall₂ (fun m m' => m' = m ∧ MatchAlike ρ m.addr) (ep.unexp tagged)
      (ep'.unexp tagged) := by
    rw [hunexp]
    exact List.forall₂_same.mpr (fun m hm => ⟨rfl, h.unexp tagged m hm⟩)
  unfold rdsMatchUnexp
  dsimp only
  obtain ⟨hnone, hnone'⟩ | ⟨_, m, ⟨rfl, -⟩, hfind, hfind', herase⟩ :=
    List.Forall₂.find?_eraseP (p := fun m => rdsMatches tagged rx m.addr m.hdr.tag)
      (q := fun m => rdsMatches tagged rx' m.addr m.hdr.tag)
      (fun m m' hm => by rw [hm.1]; exact hr.matches hm.2 tagged m.hdr.tag) hsame
  · rw [hnone, hnone']
    unfold malloc
    dsimp only
    rw [halloc]
    cases env.alloc ep.tick with
    | false =>
      exact h.quiet (f := fun e => { e with postings := e.postings + 1, tick := e.tick + 1 })
        (fun _ => rfl) (fun e => ⟨rfl, rfl, rfl, Nat.le_succ _, le_rfl, le_rfl, rfl⟩)
    | true =>
      have happend := List.rel_append (h.posted tagged) (.cons hr .nil)
      have hposted := h.forall₂_update (k := tagged) happend
      refine ⟨?_, hposted, h.unexp⟩
      exact congrArg (fun e : Ep => { e with
        postings := e.postings + 1, tick := e.tick + 1 }) (h.blind_posted hposted)
  · rw [hfind, hfind']
    dsimp only
    have hleft : (ep'.unexp tagged).eraseP (fun m => rdsMatches tagged rx' m.addr m.hdr.tag)
        = (ep.unexp tagged).eraseP (fun m => rdsMatches tagged rx m.addr m.hdr.tag) := by
      have heq := herase.imp (fun _ _ hm => hm.1.symm)
      rw [List.forall₂_eq_eq_eq] at heq
      exact heq.symm
    have hun := Unmatched.deliver env { ep with
      postings := ep.postings + 1
      unexp := Function.update ep.unexp tagged ((ep.unexp tagged).eraseP
        (fun m => rdsMatches tagged rx m.addr m.hdr.tag)) } rx m
    have hun' := Unmatched.deliver env { ep' with
      postings := ep'.postings + 1
      unexp := Function.update ep'.unexp tagged ((ep'.unexp tagged).eraseP
        (fun m => rdsMatches tagged rx' m.addr m.hdr.tag)) } rx' m
    refine ⟨?_, fun k => ?_, fun k m' hm' => ?_⟩
    · rw [← blind_deliver, ← blind_deliver, hr.1]
      have hblind := congrArg₂ (fun (e : Ep) l => { e with
        postings := e.postings + 1, unexp := Function.update e.unexp tagged l }) h.blind hleft
      exact congrArg (fun e => rdsDeliver env e rx.blind m) hblind
    · rw [hun.posted, hun'.posted]
      exact h.posted k
    · rw [hun.unexp] at hm'
      exact h.unexp k m' ((update_sublist ep.unexp List.eraseP_sublist k).subset hm')

/-- **The same receive is withdrawn.** -/
theorem epCancel (h : ep.Alike ρ ep') (context : ℕ) :
    (rdsEpCancel ep context).1.Alike ρ (rdsEpCancel ep' context).1 := by
  have hcq : ep'.cfg.hasRxCq = ep.cfg.hasRxCq := congrArg (·.cfg.hasRxCq) h.blind
  have hfind (k : Bool) := List.Forall₂.find?_eraseP (p := fun r : RxEntry => r.context == context)
    (q := fun r : RxEntry => r.context == context)
    (fun r r' hr => congrArg (·.context == context) hr.1.symm) (h.posted k)
  have hcancel (k : Bool) {r r' : RxEntry} (hr : r.Alike ρ r')
      (herase : List.Forall₂ (RxEntry.Alike ρ)
        ((ep.posted k).eraseP (fun r => r.context == context))
        ((ep'.posted k).eraseP (fun r => r.context == context))) :
      (if ep.cfg.hasRxCq then { ep.withdraw k context with
          rxCq := ep.rxCq ++ [cancelEntry r context] } else ep.withdraw k context).Alike ρ
        (if ep.cfg.hasRxCq then { ep'.withdraw k context with
          rxCq := ep'.rxCq ++ [cancelEntry r' context] } else ep'.withdraw k context) := by
    have hentry : cancelEntry r' context = cancelEntry r context := by
      have htag : r'.tag = r.tag := congrArg (·.tag) hr.1
      have hflags : r'.flags = r.flags := congrArg (·.flags) hr.1
      rw [cancelEntry, cancelEntry, htag, hflags]
    have hposted := h.forall₂_update (k := k) herase
    have hwith : (ep.withdraw k context).Alike ρ (ep'.withdraw k context) :=
      ⟨h.blind_posted hposted, hposted, h.unexp⟩
    rw [hentry]
    split
    · exact hwith.quiet (f := fun e => { e with rxCq := e.rxCq ++ [cancelEntry r context] })
        (fun _ => rfl) (fun e => .of_outer (.of_eq rfl))
    · exact hwith
  unfold rdsEpCancel
  dsimp only
  rw [hcq]
  obtain ⟨hnone, hnone'⟩ | ⟨r, r', hr, hsome, hsome', herase⟩ := hfind false
  · rw [hnone, hnone']
    dsimp only
    obtain ⟨hnone, hnone'⟩ | ⟨r, r', hr, hsome, hsome', herase⟩ := hfind true
    · rw [hnone, hnone']
      exact h
    · rw [hsome, hsome']
      exact hcancel true hr herase
  · rw [hsome, hsome']
    exact hcancel false hr herase

end Alike
end Ep

/-! ## Two histories -/

/-- **The same action, but for the source a receive names.** -/
inductive EpAct.Redirects (ρ : UInt64 → UInt64 → Prop) : EpAct → EpAct → Prop
  | same (a : EpAct) : Redirects ρ a a
  | source (env : Env) (iov : List Iovec) {addr addr' : UInt64} (h : ρ addr addr')
      (tag ignore : UInt64) (context : ℕ) (flags : UInt64) (tagged : Bool) :
      Redirects ρ (.postRecv env iov addr tag ignore context flags tagged)
        (.postRecv env iov addr' tag ignore context flags tagged)

/-- **An action keeps two endpoints alike**, if what it brings is matched alike. -/
theorem Ep.Alike.act {ep ep' : Ep} (h : ep.Alike ρ ep') {a a' : EpAct} (ha : a.Redirects ρ a')
    (hheard : ∀ src addr, ep.heard a src addr → MatchAlike ρ addr) :
    (ep.act a).Alike ρ (ep'.act a') := by
  cases ha with
  | source env iov haddr tag ignore context flags tagged =>
    exact h.postRecv env iov (.inr haddr) tag ignore context flags tagged
  | same =>
    cases a with
    | send env iov destAddr tag data context flags tagged =>
      exact h.call (fun e => blind_genericSend env e iov destAddr tag data context flags tagged)
        (fun e => .genericSend env e iov destAddr tag data context flags tagged)
    | inject env buf len destAddr tag tagged =>
      exact h.call (fun e => blind_genericInject env e buf len destAddr tag tagged)
        (fun e => .of_outer (rdsGenericInject_outer env e buf len destAddr tag tagged))
    | postRecv env iov addr tag ignore context flags tagged =>
      exact h.postRecv env iov (.inl rfl) tag ignore context flags tagged
    | cancel context => exact h.epCancel context
    | rma env iov remoteFi remoteOff key isWrite context flags =>
      exact h.call (fun e => blind_rmaCommon env e iov remoteFi remoteOff key isWrite context flags)
        (fun e => .startsRma
          (rdsRmaCommon_starts env e iov remoteFi remoteOff key isWrite context flags))
    | injectWrite env buf len destAddr addr key =>
      exact h.call (fun e => blind_injectWrite env e buf len destAddr addr key)
        (fun e => .startsRma (rdsInjectWrite_starts env e buf len destAddr addr key))
    | recv env src bytes => exact h.recvDgram env src bytes (hheard src _ ⟨rfl, rfl⟩)
    | notify env op status =>
      have herase := h.quiet (f := fun e => { e with inflight := e.inflight.erase op })
        (fun _ => rfl) (fun e => .of_eq rfl)
      exact herase.quiet (fun e => blind_handleRdmaNotify env e op.token status)
        (fun e => .handleRdmaNotify env e op.token status)
    | retry env =>
      exact h.call (fun e => blind_progressDeferred env e) (fun e => .progressDeferred env e)
    | poll env addr =>
      exact h.ringPollSlot env addr (fun p hp => hheard p.sa p.addr ⟨p, hp, rfl, rfl⟩)
    | flush env addr =>
      exact h.quiet (fun e => blind_ringFlushCredit env e addr)
        (fun e => .of_outer (rdsRingFlushCredit_outer env e addr))
    | landSlot addr idx slot =>
      exact h.quiet (f := fun e => e.updPeer addr _) (fun _ => rfl) (fun e => .of_eq rfl)
    | landCredit addr value =>
      exact h.quiet (f := fun e => e.updPeer addr _) (fun _ => rfl) (fun e => .of_eq rfl)
    | shareDomain domain =>
      exact h.quiet (f := fun e => { e with domain := domain }) (fun _ => rfl)
        (fun e => .of_eq rfl)

/-- The same step, but for the source a receive names. -/
inductive AvAct.Redirects (ρ : UInt64 → UInt64 → Prop) : AvAct → AvAct → Prop
  | same (a : AvAct) : Redirects ρ a a
  | ep {a a' : EpAct} (h : a.Redirects ρ a') : Redirects ρ (.ep a) (.ep a')

/-- **What an application sees of an endpoint**: the pairings, the queues and the
completions, without the sources that receives name. -/
structure Ep.LooksLike (ep ep' : Ep) : Prop where
  pairings : ep'.pairings.map (Prod.map id RxEntry.blind)
    = ep.pairings.map (Prod.map id RxEntry.blind)
  posted : ∀ k, (ep'.posted k).map RxEntry.blind = (ep.posted k).map RxEntry.blind
  unexp : ep'.unexp = ep.unexp
  txCq : ep'.txCq = ep.txCq
  rxCq : ep'.rxCq = ep.rxCq

theorem Ep.pairings_blind (ep : Ep) :
    ep.blind.pairings = ep.pairings.map (Prod.map id RxEntry.blind) := by
  show (ep.trace.map Event.blind).filterMap Event.pairing?
    = (ep.trace.filterMap Event.pairing?).map _
  rw [List.filterMap_map, List.map_filterMap]
  refine List.filterMap_congr (fun e _ => ?_)
  cases e with
  | _ => rfl

theorem Ep.Alike.looksLike {ep ep' : Ep} (h : ep.Alike ρ ep') : ep.LooksLike ep' where
  pairings := by rw [← pairings_blind, ← pairings_blind, h.blind]
  posted k := RxEntry.Alike.map_blind (h.posted k)
  unexp := congrArg (·.unexp) h.blind
  txCq := congrArg (·.txCq) h.blind
  rxCq := congrArg (·.rxCq) h.blind

end Alike

namespace Addressed

/-- An endpoint is opened over a vector. -/
def opened (cfg : EpCfg) (av : Av) (domain : Domain) : Addressed :=
  ⟨av, Ep.init (cfg.withAv av) domain, fun _ => 0⟩

/-- What arrives is matched under one of the given addresses. -/
def HearsFrom (S : UInt64 → Prop) (v : Addressed) : AvAct → Prop
  | .insert .. | .remove _ => True
  | .ep a => ∀ src addr, v.ep.heard a src addr → S addr

section Runs

variable {ρ : UInt64 → UInt64 → Prop} {S : UInt64 → Prop}

/-- Two endpoints over the same vector that are alike. -/
structure Alike (ρ : UInt64 → UInt64 → Prop) (v v' : Addressed) : Prop where
  av : v'.av = v.av
  ep : v.ep.Alike ρ v'.ep

theorem Alike.setAv {v v' : Addressed} (h : v.Alike ρ v') (av : Av) :
    (v.setAv av).Alike ρ (v'.setAv av) where
  av := rfl
  ep := ⟨congrArg (fun e : Ep => { e with cfg := e.cfg.withAv av }) h.ep.blind, h.ep.posted,
    h.ep.unexp⟩

theorem Alike.act {v v' : Addressed} (h : v.Alike ρ v') {a a' : AvAct} (ha : a.Redirects ρ a')
    (hS : ∀ addr, S addr → MatchAlike ρ addr) (hheard : v.HearsFrom S a) :
    (v.act a).Alike ρ (v'.act a') := by
  cases ha with
  | ep ha => exact ⟨h.av, h.ep.act ha (fun src addr hh => hS addr (hheard src addr hh))⟩
  | same =>
    cases a with
    | insert alloc addr =>
      rw [Addressed.act, Addressed.act, h.av]
      exact h.setAv _
    | remove fiAddr =>
      rw [Addressed.act, Addressed.act, h.av]
      exact h.setAv _
    | ep a => exact ⟨h.av, h.ep.act (.same a) (fun src addr hh => hS addr (hheard src addr hh))⟩

/-- **Whole histories.** -/
theorem Alike.foldl (hS : ∀ addr, S addr → MatchAlike ρ addr) {acts acts' : List AvAct}
    (hacts : List.Forall₂ (AvAct.Redirects ρ) acts acts') {v v' : Addressed} (h : v.Alike ρ v')
    (hheard : Along Addressed.act (HearsFrom S) v acts) :
    (acts.foldl Addressed.act v).Alike ρ (acts'.foldl Addressed.act v') := by
  induction hacts generalizing v v' with
  | nil => exact h
  | cons ha _ ih => exact ih (h.act ha hS hheard.1) hheard.2

theorem Alike.opened (cfg : EpCfg) (av : Av) (domain : Domain) :
    (opened cfg av domain).Alike ρ (opened cfg av domain) :=
  ⟨rfl, rfl, fun _ => .nil, nofun⟩

end Runs

/-! ## Who can tell -/

/-- **Every address is one a message may be matched under**: an index of some vector, or
`FI_ADDR_NOTAVAIL`. -/
theorem exists_source (cfg : EpCfg) (addr : UInt64) :
    ∃ av src, ofiIpAvGetFiAddr (cfg.withAv av) src = addr := by
  by_cases hlast : addr.toNat + 1 < 2 ^ 64
  · -- a vector with an address for every index up to the one that is asked for
    have hbind : ∀ i a, avBinding ((List.range (addr.toNat + 1)).map (⟨·, 1, true⟩)) i = some a →
        i = a := by
      intro i a h
      obtain ⟨e, he, hsome⟩ := Option.bind_eq_some_iff.mp h
      rw [List.getElem?_map, Option.map_eq_some_iff] at he
      obtain ⟨j, hj, rfl⟩ := he
      obtain ⟨hlt, hij⟩ := List.getElem?_eq_some_iff.mp hj
      rw [List.getElem_range] at hij
      exact hij.trans (Option.some.inj hsome)
    let av : Av := ⟨(List.range (addr.toNat + 1)).map (⟨·, 1, true⟩),
      fun i j a hi hj => (hbind i a hi).trans (hbind j a hj).symm, by
        rw [List.length_map, List.length_range]
        exact hlast⟩
    refine ⟨av, addr.toNat, ofiIpAvGetFiAddr_of_binding cfg ?_⟩
    show avBinding _ _ = _
    rw [avBinding, List.getElem?_map, List.getElem?_range (Nat.lt_succ_self _)]
    rfl
  · refine ⟨.empty, 0, UInt64.toNat_inj.mp ?_⟩
    have hlt := addr.toNat_lt
    have hnone : ofiIpAvGetFiAddr (cfg.withAv .empty) 0 = fiAddrNotavail := rfl
    have hnotavail : fiAddrNotavail.toNat = 2 ^ 64 - 1 := by decide
    rw [hnone, hnotavail]
    omega

/-- A message leaves the receives that do not take it. -/
theorem posted_handleMessage (env : Env) (ep : Ep) (m : Unexp) :
    (rdsHandleMessage env ep m).posted m.hdr.tagged = (ep.posted m.hdr.tagged).eraseP
      (fun r => rdsMatches m.hdr.tagged r m.addr m.hdr.tag) := by
  cases hfind : (ep.posted m.hdr.tagged).find?
      (fun r => rdsMatches m.hdr.tagged r m.addr m.hdr.tag) with
  | none =>
    rw [List.eraseP_of_forall_not (List.find?_eq_none.mp hfind)]
    cases Ep.Meets.handleMessage env ep m with
    | lost hun => rw [hun.posted]
    | taken r hsome _ => cases hfind.symm.trans hsome
    | queued _ hun => rw [hun.posted]; rfl
  | some r =>
    rw [rdsHandleMessage_found env hfind, (Ep.Unmatched.deliver env _ r m).posted]
    exact Function.update_self _ _ _

/-- An empty message. -/
def nothing : List UInt8 := (eagerHdr false 0 0 0 0).encode

/-- A receive is posted that names a source, and an empty message arrives. -/
def probe (a : UInt64) (src : SockAddr) : List AvAct :=
  let env := Env.calm fun _ _ => .ok 1
  [.ep (.postRecv env [] a 0 0 0 0 false), .ep (.recv env src nothing)]

/-- The message is taken if the receive matches its source. -/
theorem length_posted_probe (cfg : EpCfg) (av : Av) (domain : Domain) (a : UInt64)
    (src : SockAddr) :
    (((probe a src).foldl act (opened cfg av domain)).ep.posted false).length
      = if rdsAddrMatch a (ofiIpAvGetFiAddr (cfg.withAv av) src) then 0 else 1 := by
  let env := Env.calm fun _ _ => .ok 1
  let posted := ((opened cfg av domain).act (.ep (.postRecv env [] a 0 0 0 0 false))).ep
  let m := Unexp.ofInbound (eagerHdr false 0 0 0 0) [] src
    (ofiIpAvGetFiAddr (cfg.withAv av) src) 0
  have hrecv : rdsRecvDgram env posted src nothing = rdsHandleMessage env posted m := rfl
  have hafter : ((probe a src).foldl act (opened cfg av domain)).ep
      = rdsRecvDgram env posted src nothing := rfl
  have hposted := posted_handleMessage env posted m
  have htagged : (eagerHdr false 0 0 0 0).tagged = false := by decide
  rw [show m.hdr.tagged = false from htagged] at hposted
  have hone : posted.posted false
      = [(opened cfg av domain).ep.postedEntry [] a 0 0 0 0 false] := rfl
  rw [hafter, hrecv, hposted, hone]
  have hmatch : rdsMatches false ((opened cfg av domain).ep.postedEntry [] a 0 0 0 0 false) m.addr
      m.hdr.tag = rdsAddrMatch a (ofiIpAvGetFiAddr (cfg.withAv av) src) := Bool.and_true _
  rw [List.eraseP_cons, hmatch]
  cases rdsAddrMatch a (ofiIpAvGetFiAddr (cfg.withAv av) src) with
  | true => rfl
  | false => rfl

/-- **The source of a receive is ignored exactly if nobody can tell.** Let the receives of two
histories name different sources, related by `ρ`, and let all messages be matched under
addresses of `S`: everything an application sees is the same in both, whatever happens in
them, if and only if `rds_addr_match` does not tell related sources apart on `S`. -/
theorem source_ignored_iff (cfg : EpCfg) (domain : Domain) (ρ : UInt64 → UInt64 → Prop)
    (S : UInt64 → Prop) :
    (∀ av acts acts', List.Forall₂ (AvAct.Redirects ρ) acts acts' →
        Along act Admits (opened cfg av domain) acts →
        Along act (HearsFrom S) (opened cfg av domain) acts →
        (acts.foldl act (opened cfg av domain)).ep.LooksLike
          (acts'.foldl act (opened cfg av domain)).ep)
      ↔ ∀ a a', ρ a a' → ∀ addr, S addr → rdsAddrMatch a' addr = rdsAddrMatch a addr := by
  constructor
  · intro hsame a a' hρ addr hS
    obtain ⟨av, src, haddr⟩ := exists_source cfg addr
    have hlooks := hsame av (probe a src) (probe a' src)
      (.cons (.ep (.source _ _ hρ _ _ _ _ _)) (.cons (.same _) .nil)) ⟨trivial, trivial, trivial⟩
      ⟨nofun, by rintro _ _ ⟨-, rfl⟩; exact haddr.symm ▸ hS, trivial⟩
    have hlen := congrArg List.length (hlooks.posted false)
    rw [List.length_map, List.length_map, length_posted_probe, length_posted_probe, haddr] at hlen
    revert hlen
    cases rdsAddrMatch a' addr with
    | true =>
      cases rdsAddrMatch a addr with
      | true => exact fun _ => rfl
      | false => exact nofun
    | false =>
      cases rdsAddrMatch a addr with
      | true => exact nofun
      | false => exact fun _ => rfl
  · intro hS av acts acts' hacts _ hheard
    have halike := Alike.foldl (fun addr h a a' hρ => hS a a' hρ addr h) hacts
      (.opened cfg av domain) hheard
    exact halike.ep.looksLike

/-- **Without directed receives, the source is still looked at.** A message of the address 20
is taken by a receive that names no source, and is passed over by one that names the address
30 as its source, on an endpoint that never asked for `FI_DIRECTED_RECV`. -/
theorem named_source_is_not_ignored :
    let cfg := EpCfg.standard false [] 10
    let av := (Av.empty.insert true 20).insert true 30
    let env := Env.calm fun _ _ => .ok 1
    let run := fun a : UInt64 => [AvAct.ep (.postRecv env [⟨4096, 4⟩] a 0 0 7 0 false),
      .ep (.recv env 20 ((eagerHdr false 0 0 0 4).encode ++ [1, 2, 3, 4]))]
    let last := fun a =>
      ((run a).foldl act (opened cfg av (.opened true (some 3) 1024 268435456))).ep
    cfg.caps &&& fiDirectedRecv = 0
      ∧ (last fiAddrUnspec).pairings.length = 1 ∧ (last fiAddrUnspec).rxCq.length = 1
      ∧ (last 1).pairings = [] ∧ (last 1).rxCq = []
      ∧ ((last 1).posted false).length = 1 ∧ ((last 1).unexp false).length = 1 := by
  decide +kernel

end Addressed
