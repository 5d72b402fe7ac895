import RdsProv.World
import Mathlib.Tactic.FinCases
import Mathlib.Tactic.NormNum

/-!
# No rendezvous transfer is dropped

Back-pressure is not loss. As long as `sendmsg` can only ask to be tried again,
allocations succeed and the network delivers each datagram once, every rendezvous
send that is pending has exactly one token in the system: its request is under
way or unexpected somewhere, or a receive is reading its source, or its `FIN` is
parked or on the way back. The count is `World.tokens`; that it always agrees with
the table of the sender is `rendezvous_tokens_conserved`.

The one thing this rests on is that an id names one send. Ids are drawn from a
counter of sixty-four bits that skips only zero, and an attempt that is refused
draws one too, so after `2 ^ 64 - 1` attempts an id comes round while the send
that drew it first may still be pending (`ids_come_round`).
-/

/-! ## Where a token can be -/

namespace Ep

variable (ep : Ep) (s : SockAddr) (i : UInt64)

/-- The requests with an id on their way from the endpoint: as datagrams, or in
slots of a ring. -/
def requestsOut : ℕ :=
  ep.wire.countP (·.ctl? = some (.rts i)) + ep.writes.countP (·.ctl? = some (.rts i))

/-- The `FIN`s on their way to a sender. -/
def finsOut : ℕ :=
  ep.wire.countP (·.ctl? = some (.fin s i)) + ep.writes.countP (·.ctl? = some (.fin s i))

/-- The unexpected requests of a sender. -/
def requestsWaiting : ℕ :=
  (ep.unexp false).countP (·.request? = some (s, i))
    + (ep.unexp true).countP (·.request? = some (s, i))

/-- The rendezvous receives that read from a sender. -/
def receivesFor : ℕ :=
  ep.pending.countP (fun p => p.type = .rndzvRx ∧ p.peer = s ∧ p.peerId = i)

/-- The parked `FIN`s to a sender. -/
def finsParked : ℕ := ep.deferred.countP (· = .fin s i)

/-- The rendezvous sends pending under an id. -/
def sendsPending : ℕ := ep.pending.countP (fun p => p.type = .rndzvTx ∧ p.id = i)

end Ep

/-- **The tokens of a rendezvous send** of an endpoint, wherever they are. -/
def World.tokens {ι : Type} [Fintype ι] (w : World ι) (S : ι) (i : UInt64) : ℕ :=
  (w S).requestsOut i + ∑ R, ((w R).requestsWaiting (w S).cfg.self i
    + (w R).receivesFor (w S).cfg.self i + (w R).finsParked (w S).cfg.self i
    + (w R).finsOut (w S).cfg.self i)

/-! ## They are the tokens of the books -/

/-- Requests count for the endpoint they come from, `FIN`s for the one they go to. -/
theorem countP_carries (sent : Multiset Ctl) (self s : SockAddr) (i : UInt64) :
    sent.countP (Ctl.Carries self s i)
      = (if self = s then sent.count (.rts i) else 0) + sent.count (.fin s i) := by
  induction sent using Multiset.induction_on with
  | empty => simp
  | cons c sent ih =>
    rw [Multiset.countP_cons, ih, Multiset.count_cons, Multiset.count_cons]
    cases c with
    | rts id =>
      rw [if_neg (show Ctl.fin s i ≠ .rts id from nofun)]
      by_cases hself : self = s
      · by_cases hid : id = i
        · rw [if_pos (show (Ctl.rts id).Carries self s i from ⟨hself, hid⟩), if_pos hself,
            if_pos hself, if_pos (congrArg Ctl.rts hid.symm)]
          omega
        · rw [if_neg (show ¬ (Ctl.rts id).Carries self s i from fun h => hid h.2), if_pos hself,
            if_pos hself, if_neg (fun h => hid (Ctl.rts.inj h).symm)]
          omega
      · rw [if_neg (show ¬ (Ctl.rts id).Carries self s i from fun h => hself h.1), if_neg hself,
          if_neg hself]
        omega
    | fin peer id =>
      rw [if_neg (show Ctl.rts i ≠ .fin peer id from nofun), Nat.add_zero]
      by_cases hfin : peer = s ∧ id = i
      · rw [if_pos (show (Ctl.fin peer id).Carries self s i from hfin),
          if_pos (show Ctl.fin s i = .fin peer id by rw [hfin.1, hfin.2]), Nat.add_assoc]
      · rw [if_neg (show ¬ (Ctl.fin peer id).Carries self s i from hfin), if_neg (fun h => hfin
          ⟨(Ctl.fin.inj h).1.symm, (Ctl.fin.inj h).2.symm⟩)]
        rfl

theorem count_filterMap {α β : Type} [DecidableEq β] (f : α → Option β) (l : List α) (b : β) :
    ((l.filterMap f : List β) : Multiset β).count b = l.countP (f · = some b) := by
  rw [Multiset.coe_count]
  induction l with
  | nil => rfl
  | cons a l ih =>
    rw [List.countP_cons]
    cases hfa : f a with
    | none => rw [List.filterMap_cons_none hfa, ih, if_neg (by simp), Nat.add_zero]
    | some c =>
      rw [List.filterMap_cons_some hfa, List.count_cons, ih]
      simp only [beq_iff_eq, decide_eq_true_eq, Option.some.injEq]

theorem Ep.tokens_book (ep : Ep) (self s : SockAddr) (i : UInt64) :
    (ep.book 0 none).tokens self s i = (if self = s then ep.requestsOut i else 0)
      + (ep.requestsWaiting s i + ep.receivesFor s i + ep.finsParked s i + ep.finsOut s i) := by
  have hsent : (ep.book 0 none).sent.countP (Ctl.Carries self s i)
      = (if self = s then ep.requestsOut i else 0) + ep.finsOut s i := by
    rw [countP_carries]
    unfold Ep.book Ep.requestsOut Ep.finsOut
    dsimp only
    rw [Multiset.count_add, Multiset.count_add, count_filterMap, count_filterMap, count_filterMap,
      count_filterMap]
  have hqueue : (ep.book 0 none).queue.countP (· = (s, i)) = ep.requestsWaiting s i := by
    have hcount : (ep.book 0 none).queue.countP (· = (s, i))
        = (ep.book 0 none).queue.count (s, i) :=
      Multiset.countP_congr rfl (fun _ _ => propext eq_comm)
    rw [hcount]
    unfold Ep.book Ep.requestsWaiting
    dsimp only
    rw [Multiset.count_add, count_filterMap, count_filterMap]
  have hpending : (ep.book 0 none).pending.countP (Pending.Carries s i) = ep.receivesFor s i :=
    Multiset.coe_countP _ _
  have hparked : (ep.book 0 none).parked.countP (· = .fin s i) = ep.finsParked s i :=
    Multiset.coe_countP _ _
  have hhand : (ep.book 0 none).hand.countP (Hand.Carries self s i) = 0 := rfl
  unfold Book.tokens
  rw [hsent, hqueue, hpending, hparked, hhand]
  omega

namespace World

variable {ι : Type} [Fintype ι] [DecidableEq ι] {lossy : Prop} {addr : ι → SockAddr}
  {w : World ι}

omit [DecidableEq ι] in
theorem tokens_eq (hself : ∀ j, (w j).cfg.self = addr j) (haddr : Function.Injective addr)
    (S : ι) (i : UInt64) : w.tokens S i = Net.tokens addr w.books (addr S) i := by
  have hown : ∑ j, (if addr j = addr S then (w j).requestsOut i else 0)
      = (w S).requestsOut i := by
    rw [Finset.sum_eq_single S]
    · rw [if_pos rfl]
    · intro j _ hj
      exact if_neg (fun h => hj (haddr h))
    · intro h
      exact absurd (Finset.mem_univ S) h
  unfold World.tokens Net.tokens World.books
  simp only [Ep.tokens_book]
  rw [← hown, hself S, ← Finset.sum_add_distrib]

omit [DecidableEq ι] in
theorem sends_eq (haddr : Function.Injective addr) (S : ι) (i : UInt64) :
    (w S).sendsPending i = Net.sends addr w.books (addr S) i := by
  rw [Net.sends_self haddr]
  unfold Book.sends Ep.sendsPending
  show _ = Multiset.countP _ ((w S).pending : Multiset Pending)
  rw [Multiset.coe_countP]
  refine List.countP_congr (fun p _ => ?_)
  simp [Pending.Sends]

/-! ## Conservation -/

/-- **Rendezvous transfers are conserved**, in one state of a system. -/
structure Conserved (w : World ι) : Prop where
  /-- Every send that is pending has one token, and every token has its send. -/
  tokens : ∀ S i, w.tokens S i = (w S).sendsPending i
  unique : ∀ S i, (w S).sendsPending i ≤ 1
  /-- A `FIN` under way will find its send. -/
  found : ∀ R S, ∀ d ∈ (w R).wire, ∀ i, d.ctl? = some (.fin (w S).cfg.self i) →
    ∃ p, rdsPendingFind (w S) i = some p ∧ p.type = .rndzvTx
  /-- A send was accepted under an id at most once, and is pending until it is
  completed. -/
  accepted : ∀ S i, (w S).trace.countP (fun e => e.opensTx i) ≤ 1
  completed : ∀ S i, (w S).trace.countP (fun e => e.closesTx i) + (w S).sendsPending i
    = (w S).trace.countP (fun e => e.opensTx i)

end World

theorem Ep.booked_of_opensTx {id : UInt64} (e : Event) (h : e.opensTx id = true) :
    e.booked = true := by
  cases e with
  | paired m r => cases h
  | _ => rfl

theorem Ep.booked_of_closesTx {id : UInt64} (e : Event) (h : e.closesTx id = true) :
    e.booked = true := by
  cases e with
  | paired m r => cases h
  | _ => rfl

theorem Ep.pendingOf_eq (ep : Ep) (i : UInt64) :
    (ep.book 0 none).pendingOf .rndzvTx i = ep.sendsPending i :=
  Multiset.coe_countP _ _

/-- An id names at most one send, and the table finds it. -/
theorem Ep.Sound.find_send {ep : Ep} (h : ep.Sound) {i : UInt64} (hpos : 0 < ep.sendsPending i) :
    ∃ p, rdsPendingFind ep i = some p ∧ p.type = .rndzvTx := by
  rw [← Ep.pendingOf_eq] at hpos
  obtain ⟨q, hq, htype, rfl⟩ := Multiset.countP_pos.mp hpos
  have hsome : (rdsPendingFind ep q.id).isSome := by
    rw [rdsPendingFind, List.find?_isSome]
    exact ⟨q, Multiset.mem_coe.mp hq, beq_self_eq_true _⟩
  obtain ⟨p, hfind⟩ := Option.isSome_iff_exists.mp hsome
  have hp : p ∈ (ep.book 0 none).pending := Multiset.mem_coe.mpr (List.mem_of_find?_eq_some hfind)
  have hid : p.id = q.id := beq_iff_eq.mp (List.find?_eq_some_iff_append.mp hfind).1
  rw [h.ok.eq_of_id hp hq hid] at hfind
  exact ⟨q, hfind, htype⟩

namespace World

variable {ι : Type} [Fintype ι] [DecidableEq ι] {addr : ι → SockAddr} {w : World ι}

omit [DecidableEq ι] in
/-- **The invariant conserves transfers** where nothing is lost. -/
theorem Inv.conserved (h : w.Inv False addr) (haddr : Function.Injective addr) :
    w.Conserved := by
  have htokens : ∀ S i, w.tokens S i = (w S).sendsPending i := by
    intro S i
    rw [tokens_eq h.self haddr, sends_eq haddr]
    exact (h.balanced (addr S) i).2 id
  have haccepted : ∀ S i, (w S).trace.countP (fun e => e.opensTx i) ≤ 1 := by
    intro S i
    rw [← Ep.countP_log (w S) Ep.booked_of_opensTx]
    exact (h.sound S).history.txOnce i
  have hcompleted : ∀ S i, (w S).trace.countP (fun e => e.closesTx i) + (w S).sendsPending i
      = (w S).trace.countP (fun e => e.opensTx i) := by
    intro S i
    rw [← Ep.countP_log (w S) Ep.booked_of_opensTx, ← Ep.countP_log (w S) Ep.booked_of_closesTx,
      ← Ep.pendingOf_eq]
    exact (h.sound S).history.tx i
  refine ⟨htokens, fun S i => ?_, fun R S d hd i hctl => ?_, haccepted, hcompleted⟩
  · exact (Nat.le_add_left _ _).trans ((hcompleted S i).le.trans (haccepted S i))
  · refine (h.sound S).find_send ?_
    rw [← htokens S i]
    -- the datagram is one of the tokens
    have hfin : 0 < (w R).finsOut (w S).cfg.self i := by
      refine Nat.add_pos_left (List.countP_pos_iff.mpr ⟨d, hd, ?_⟩) _
      exact decide_eq_true hctl
    have hsum := Finset.single_le_sum (f := fun R => (w R).requestsWaiting (w S).cfg.self i
      + (w R).receivesFor (w S).cfg.self i + (w R).finsParked (w S).cfg.self i
      + (w R).finsOut (w S).cfg.self i) (fun _ _ => Nat.zero_le _) (Finset.mem_univ R)
    unfold World.tokens
    omega

omit [DecidableEq ι] in
/-- A `FIN` under way goes to an endpoint of the system. -/
theorem Inv.fin_dst {lossy : Prop} (h : w.Inv lossy addr) {R : ι} {d : Dgram}
    (hd : d ∈ (w R).wire) {s : SockAddr} {i : UInt64} (hctl : d.ctl? = some (.fin s i)) :
    ∃ S, addr S = s := by
  by_contra hnone
  have hsends : Net.sends addr w.books s i = 0 :=
    Finset.sum_eq_zero (fun j _ => Multiset.countP_eq_zero.mpr
      (fun p _ hp => hnone ⟨j, hp.2.1⟩))
  have hfin : 0 < (w R).finsOut s i :=
    Nat.add_pos_left (List.countP_pos_iff.mpr ⟨d, hd, decide_eq_true hctl⟩) _
  have htokens : ((w R).book 0 none).tokens (addr R) s i ≤ Net.tokens addr w.books s i :=
    Finset.single_le_sum (f := fun j => (w.books j).tokens (addr j) s i)
      (fun _ _ => Nat.zero_le _) (Finset.mem_univ R)
  have hbook := (w R).tokens_book (addr R) s i
  have hle := (h.balanced s i).1
  omega

end World

/-! ## A sender under back-pressure -/

/-- A socket with room, and a kernel that registers what it is asked to. -/
def Env.roomy : Env := Env.calm (fun _ _ => .ok 1)

/-- The same, but the socket has no room. -/
def Env.crowded : Env := { Env.roomy with sendmsg := fun _ _ => some fiEagain }

/-- An endpoint at address 10 that knows itself and the address 20. -/
def senderCfg : EpCfg := EpCfg.standard false [10, 20] 10

/-- A send to address 20 of one byte more than goes eagerly. -/
def bigSend (env : Env) : EpAct := .send env [⟨0, 65537⟩] 1 0 0 7 0 false

theorem rdsMrPut_cacheEnabled (dom : Domain) (h : ℕ) :
    (rdsMrPut dom h).cacheEnabled = dom.cacheEnabled := by
  unfold rdsMrPut
  split
  · rfl
  split
  · rfl
  · rfl

/-- The registration of a single chunk without the cache. -/
theorem rdsRegChunks_single {env : Env} (halloc : ∀ t, env.alloc t = true)
    (hreg : ∀ calls r, env.getMr calls r = .ok 1) (sock : ℕ) {r : Region}
    (hlen : r.len ≤ rdsKernelSegMax) (dom : Domain) :
    ∃ dom' h, rdsRegChunks env sock false [r] dom
        = (dom', [⟨1, 0, UInt64.ofNat r.len⟩], [h], none)
      ∧ dom'.cacheEnabled = dom.cacheEnabled := by
  unfold rdsRegChunks rdsRegChunks rdsRegChunk rdsRegInternal rdsKernelReg
  rw [if_neg (Nat.not_lt.mpr hlen), hreg]
  dsimp only
  rw [halloc]
  exact ⟨_, _, rfl, rfl⟩

/-- A send of that size goes by rendezvous. -/
theorem bigSend_act (env : Env) {ep : Ep} (hcfg : ep.cfg = senderCfg) :
    ep.act (bigSend env) = (rdsSendRndzv env ep [⟨0, 65537⟩] 20 0 0 7 0 false true 1).1 := by
  have hring : ep.cfg.eagerRdma = false := by rw [hcfg]; rfl
  have hsize : ep.cfg.eagerSize = 65536 := by rw [hcfg]; rfl
  have haddr : rdsAvAddr ep.cfg 1 = some 20 := by rw [hcfg]; rfl
  have hflags : ep.cfg.txOpFlags = fiCompletion := by rw [hcfg]; rfl
  unfold bigSend Ep.act rdsGenericSend
  dsimp only
  rw [if_neg (show ¬ rdsIovLimit < [(⟨0, 65537⟩ : Iovec)].length by decide),
    if_neg (show ¬ rdsMaxMsgSize < ofiTotalIovLen [(⟨0, 65537⟩ : Iovec)] by decide), haddr, hflags,
    hring]
  dsimp only
  have hoff : ¬ (false = true ∧ ofiTotalIovLen [(⟨0, 65537⟩ : Iovec)] ≤ ep.cfg.geom.payload) :=
    fun h => nomatch h.1
  rw [if_neg hoff]
  dsimp only
  rw [if_neg (fun h => h rfl), hring, hsize, if_neg (show ¬ false = true from nofun),
    if_neg (show ¬ ofiTotalIovLen [(⟨0, 65537⟩ : Iovec)] ≤ 65536 by decide)]
  rfl

/-- The request such a send makes. -/
def bigRequest (id : UInt64) : Dgram :=
  ⟨10, 20, (rtsHdr false 0 1 0 0 65537 id).encode ++ encodeSegs [⟨1, 0, 65537⟩]⟩

theorem ctl?_bigRequest (id : UInt64) : (bigRequest id).ctl? = some (.rts id) := by
  obtain ⟨hlen, hread⟩ := ctl?_encode (rtsHdr false 0 1 0 0 65537 id) [⟨1, 0, 65537⟩] 20
  refine (if_neg hlen).trans (hread.trans ?_)
  exact ctl?_rtsHdr 20 false 0 0 0 id 65537 1 [⟨1, 0, 65537⟩] rfl (by decide)

/-- **An attempt to send** registers the source, draws an id and makes a request. -/
theorem bigSend_attempt (env : Env) (halloc : ∀ t, env.alloc t = true)
    (hreg : ∀ calls r, env.getMr calls r = .ok 1) {ep : Ep} (hcfg : ep.cfg = senderCfg)
    (hcache : ep.domain.cacheEnabled = false) (hroom : ep.rndzvTxInflight.toNat < 256) :
    ∃ (dom : Domain) (t : ℕ) (p : Pending),
      dom.cacheEnabled = false ∧ p.id = succId ep.opId ∧ p.type = .rndzvTx ∧ p.cached = false
      ∧ ep.act (bigSend env) = (rdsSendRts env { ep with
          tick := t, domain := dom, opId := succId ep.opId, idsGiven := ep.idsGiven + 1 } p
          (bigRequest (succId ep.opId)).bytes 20 1).1 := by
  obtain ⟨dom, h, hchunks, hdom⟩ := rdsRegChunks_single halloc hreg ep.cfg.sock
    (show (⟨0, 65537⟩ : Region).len ≤ rdsKernelSegMax by decide) ep.domain
  have hmax : ep.cfg.rndzvMaxInflight = 256 := by rw [hcfg]; rfl
  rw [bigSend_act env hcfg]
  unfold rdsSendRndzv
  dsimp only
  rw [hmax, if_neg (Nat.not_le.mpr hroom),
    if_neg (show ¬ rdsMaxEagerSize < rdsNseg [⟨0, 65537⟩] * rdsSegSize by decide),
    chunksOf_single 0 (by decide) (by decide)]
  unfold Ep.malloc
  dsimp only
  rw [halloc, halloc, if_neg (by decide), hcache, hchunks]
  dsimp only
  unfold rdsPendingAlloc Ep.malloc rdsNextId
  dsimp only
  rw [halloc]
  exact ⟨dom, ep.tick + 1 + 1 + 1, _, hdom.trans hcache, rfl, rfl, rfl, rfl⟩

theorem rdsUnregChunks_cacheEnabled (hs : List ℕ) (dom : Domain) :
    (rdsUnregChunks false dom hs).cacheEnabled = dom.cacheEnabled := by
  unfold rdsUnregChunks
  induction hs generalizing dom with
  | nil => rfl
  | cons h hs ih =>
    rw [List.foldl_cons, ih]
    exact rdsMrPut_cacheEnabled dom h

/-- An attempt that is refused leaves nothing behind but the id it drew. -/
theorem bigSend_refused {ep : Ep} (hcfg : ep.cfg = senderCfg)
    (hcache : ep.domain.cacheEnabled = false) (hroom : ep.rndzvTxInflight.toNat < 256) :
    ∃ dom t, dom.cacheEnabled = false ∧ ep.act (bigSend .crowded) = { ep with
      tick := t, domain := dom, opId := succId ep.opId, idsGiven := ep.idsGiven + 1 } := by
  have hring : ep.cfg.eagerRdma = false := by rw [hcfg]; rfl
  obtain ⟨dom, t, p, hdom, hid, htype, hcached, hact⟩ :=
    bigSend_attempt .crowded (fun _ => rfl) (fun _ _ => rfl) hcfg hcache hroom
  refine ⟨rdsUnregChunks false dom p.mrs, t + 1, ?_, ?_⟩
  · rw [rdsUnregChunks_cacheEnabled, hdom]
  · rw [hact, rdsSendRts, hring]
    unfold rdsPendingReleaseMrs
    rw [hcached]
    rfl

/-- An attempt that goes through leaves a pending send and its request. -/
theorem bigSend_accepted {ep : Ep} (hcfg : ep.cfg = senderCfg)
    (hcache : ep.domain.cacheEnabled = false) (hroom : ep.rndzvTxInflight.toNat < 256) :
    ∃ dom t p, dom.cacheEnabled = false ∧ p.id = succId ep.opId ∧ p.type = .rndzvTx
      ∧ ep.act (bigSend .roomy) = { ep with
        tick := t, domain := dom, opId := succId ep.opId, idsGiven := ep.idsGiven + 1
        pending := ep.pending ++ [p], wire := ep.wire ++ [bigRequest (succId ep.opId)]
        rndzvTxInflight := ep.rndzvTxInflight + 1, trace := ep.trace ++ [.txOpen p.id] } := by
  have hring : ep.cfg.eagerRdma = false := by rw [hcfg]; rfl
  have hself : ep.cfg.self = 10 := by rw [hcfg]; rfl
  obtain ⟨dom, t, p, hdom, hid, htype, hcached, hact⟩ :=
    bigSend_attempt .roomy (fun _ => rfl) (fun _ _ => rfl) hcfg hcache hroom
  refine ⟨dom, t + 1, p, hdom, hid, htype, ?_⟩
  have hrequest : bigRequest (succId ep.opId)
      = ⟨ep.cfg.self, 20, (bigRequest (succId ep.opId)).bytes⟩ := by
    rw [hself]
    rfl
  rw [hact, rdsSendRts, hring, hrequest]
  rfl

/-- A send is pending under the id 1, and `n` ids have been drawn. -/
structure Stalled (n : ℕ) (wire : List Dgram) (ep : Ep) : Prop where
  cfg : ep.cfg = senderCfg
  cache : ep.domain.cacheEnabled = false
  txInflight : ep.rndzvTxInflight = 1
  opId : ep.opId.toNat = n
  pending : ∃ p, ep.pending = [p] ∧ p.type = .rndzvTx ∧ p.id = 1
  wire : ep.wire = wire

theorem Stalled.refused {n : ℕ} {wire : List Dgram} {ep : Ep} (h : Stalled n wire ep)
    (hn : n + 1 < 2 ^ 64) : Stalled (n + 1) wire (ep.act (bigSend .crowded)) := by
  obtain ⟨dom, t, hdom, hact⟩ := bigSend_refused h.cfg h.cache (by rw [h.txInflight]; decide)
  rw [hact]
  refine ⟨h.cfg, hdom, h.txInflight, ?_, h.pending, h.wire⟩
  rw [← h.opId] at hn ⊢
  exact Book.toNat_succId hn

/-- The first send of an endpoint stalls. -/
theorem Stalled.first {ep : Ep} (hcfg : ep.cfg = senderCfg)
    (hcache : ep.domain.cacheEnabled = false) (hroom : ep.rndzvTxInflight = 0)
    (hopId : ep.opId = 0) (hpending : ep.pending = []) (hwire : ep.wire = []) :
    Stalled 1 [bigRequest 1] (ep.act (bigSend .roomy)) := by
  obtain ⟨dom, t, p, hdom, hid, htype, hact⟩ := bigSend_accepted hcfg hcache
    (by rw [hroom]; decide)
  rw [hopId] at hid hact
  rw [hact]
  refine ⟨hcfg, hdom, ?_, rfl, ⟨p, ?_, htype, hid⟩, ?_⟩
  · show ep.rndzvTxInflight + 1 = 1
    rw [hroom]
    rfl
  · show ep.pending ++ [p] = [p]
    rw [hpending]
    rfl
  · show ep.wire ++ [bigRequest 1] = [bigRequest 1]
    rw [hwire]
    rfl

/-- **The id of a stalled send comes round** when all others have been drawn. -/
theorem Stalled.again {n : ℕ} (hn : n + 1 = 2 ^ 64) {wire : List Dgram} {ep : Ep}
    (h : Stalled n wire ep) :
    (ep.act (bigSend .roomy)).wire = wire ++ [bigRequest 1]
      ∧ ∃ p q, (ep.act (bigSend .roomy)).pending = [p, q]
        ∧ (p.type = .rndzvTx ∧ p.id = 1) ∧ q.type = .rndzvTx ∧ q.id = 1 := by
  have hopId : ep.opId = 18446744073709551615 := by
    refine UInt64.toNat_inj.mp (h.opId.trans ?_)
    show n = 18446744073709551615
    omega
  have hsucc : succId ep.opId = 1 := by
    rw [hopId]
    decide
  obtain ⟨dom, t, q, -, hid, htype, hact⟩ := bigSend_accepted h.cfg h.cache
    (by rw [h.txInflight]; decide)
  obtain ⟨p, hpending, htype₁, hid₁⟩ := h.pending
  rw [hsucc] at hid hact
  rw [hact]
  refine ⟨congrArg (· ++ _) h.wire, p, q, ?_, ⟨htype₁, hid₁⟩, htype, hid⟩
  exact congrArg (· ++ [q]) hpending

theorem Env.roomy_not_lossy : ¬ Env.roomy.Lossy := by
  rintro (h | h)
  · exact h (fun t op e he => nomatch he)
  · exact h (fun t => rfl)

theorem Env.crowded_not_lossy : ¬ Env.crowded.Lossy := by
  rintro (h | h)
  · refine h (fun t op e he => ?_)
    exact .inl (Option.some.inj he).symm
  · exact h (fun t => rfl)

/-- Two endpoints, at the addresses 10 and 20. -/
def twoCfgs (j : Fin 2) : EpCfg := EpCfg.standard false [10, 20] (if j = 0 then 10 else 20)

/-- Their domains, without registration caches. -/
def twoDomains : Fin 2 → Domain := fun _ => Domain.opened false (some 3) 0 0

/-- An endpoint may act whenever its socket and its allocator lose nothing. -/
theorem admits_own (w : World (Fin 2)) {j : Fin 2} {a : EpAct} {env : Env} (henv : ¬ env.Lossy)
    (ha : a.env? = some env) (hin : (w j).incoming a = 0) (hadm : (w j).Admits a) :
    w.Admits False (.own j a) := by
  refine ⟨hin, hadm, fun env' h hlossy => henv ?_⟩
  cases ha.symm.trans h
  exact hlossy

/-- A send of the first of them is always possible. -/
theorem admits_bigSend (w : World (Fin 2)) {env : Env} (henv : ¬ env.Lossy) :
    w.Admits False (.own 0 (bigSend env)) :=
  admits_own w henv rfl rfl trivial

/-- **Any number of attempts can be refused.** -/
theorem Stalled.run (n : ℕ) {m : ℕ} {wire : List Dgram} {w : World (Fin 2)}
    (h : Stalled m wire (w 0)) (hn : m + n < 2 ^ 64) :
    ∃ acts, Along World.act (World.Admits False) w acts
      ∧ Stalled (m + n) wire (acts.foldl World.act w 0) ∧ acts.foldl World.act w 1 = w 1 := by
  induction n generalizing m w with
  | zero => exact ⟨[], trivial, h, rfl⟩
  | succ n ih =>
    have hstep : Stalled (m + 1) wire (w.act (.own 0 (bigSend .crowded)) 0) :=
      h.refused (by omega)
    obtain ⟨acts, hrun, hstalled, hother⟩ := ih hstep (by omega)
    rw [Nat.add_assoc, Nat.add_comm 1 n] at hstalled
    exact ⟨.own 0 (bigSend .crowded) :: acts,
      ⟨admits_bigSend w Env.crowded_not_lossy, hrun⟩, hstalled, hother⟩

/-- **No rendezvous transfer is dropped.** In every run of a system of endpoints
with distinct addresses in which `sendmsg` fails only for lack of room, allocations
succeed and nothing is lost on the way, and in which no endpoint has drawn `2 ^ 64`
ids, transfers are conserved in every state reached. -/
theorem rendezvous_tokens_conserved {ι : Type} [Fintype ι] [DecidableEq ι] (cfg : ι → EpCfg)
    (domain : ι → Domain) (acts : List (WorldAct ι))
    (haddr : Function.Injective (fun j => (cfg j).self))
    (hrun : World.Runs False cfg domain acts)
    (hids : ∀ j, (World.after cfg domain acts j).idsGiven < 2 ^ 64) :
    (World.after cfg domain acts).Conserved :=
  (World.Inv.after haddr hrun hids).conserved haddr

/-- A receive that has room for the message. -/
def postBig : EpAct := .postRecv .roomy [⟨4096, 65537⟩] fiAddrUnspec 0 0 1 0 false

/-- The read of the message that was sent under the id 2. -/
def bigRead : RdmaOp := ReadReq.op ⟨1, 0, [⟨4096, 65537⟩]⟩ 10 1 2

/-- **A transfer under back-pressure.** A send is refused and made again. The receiver's
socket has no room for the read, which is parked and issued later; when it is acknowledged
there is no room for the `FIN`, which is parked. -/
def refusedTransfer : List (WorldAct (Fin 2)) :=
  [.own 0 (bigSend .crowded), .own 0 (bigSend .roomy), .own 1 postBig,
    .deliver .crowded 0 1 (bigRequest 2), .own 1 (.retry .roomy),
    .own 1 (.notify .crowded bigRead 0)]

theorem refusedTransfer_runs : World.Runs False twoCfgs twoDomains refusedTransfer :=
  ⟨admits_bigSend _ Env.crowded_not_lossy, admits_bigSend _ Env.roomy_not_lossy,
    admits_own _ Env.roomy_not_lossy rfl rfl trivial,
    ⟨by decide +kernel, rfl, Env.crowded_not_lossy⟩,
    admits_own _ Env.roomy_not_lossy rfl rfl trivial,
    admits_own _ Env.crowded_not_lossy rfl rfl
      (show bigRead ∈ (World.after twoCfgs twoDomains (refusedTransfer.take 5) 1).inflight by
        decide +kernel), trivial⟩

/-- Under back-pressure at every turn the send keeps its token, which ends up in a parked
`FIN`. -/
theorem one_send_conserved :
    World.Runs False twoCfgs twoDomains refusedTransfer
      ∧ (World.after twoCfgs twoDomains refusedTransfer 0).sendsPending 2 = 1
      ∧ (World.after twoCfgs twoDomains refusedTransfer 1).finsParked 10 2 = 1
      ∧ (World.after twoCfgs twoDomains refusedTransfer).Conserved :=
  ⟨refusedTransfer_runs, by decide +kernel, by decide +kernel,
    rendezvous_tokens_conserved twoCfgs twoDomains refusedTransfer (by decide)
      refusedTransfer_runs (by decide +kernel)⟩

/-- **Ids come round.** One send is accepted; `2 ^ 64 - 2` attempts are refused for
lack of room; the next one is accepted, under the id of the first. The table of the
sender then has two sends with that id, and each has two tokens. -/
theorem ids_come_round : ∃ acts : List (WorldAct (Fin 2)),
    World.Runs False twoCfgs twoDomains acts
      ∧ (World.after twoCfgs twoDomains acts 0).sendsPending 1 = 2
      ∧ 2 ≤ (World.after twoCfgs twoDomains acts).tokens 0 1 := by
  -- the number of refusals is kept abstract: nothing depends on its value but the sum
  obtain ⟨n, hn⟩ : ∃ n, 1 + n + 1 = 2 ^ 64 := ⟨18446744073709551614, by norm_num⟩
  have hfirst : Stalled 1 [bigRequest 1]
      ((World.init twoCfgs twoDomains).act (.own 0 (bigSend .roomy)) 0) :=
    .first rfl rfl rfl rfl rfl rfl
  obtain ⟨acts, hrun, hstalled, -⟩ := hfirst.run n (by omega)
  obtain ⟨hwire, p, q, hpending, ⟨htype, hid⟩, htype', hid'⟩ := hstalled.again hn
  refine ⟨.own 0 (bigSend .roomy) :: (acts ++ [.own 0 (bigSend .roomy)]), ?_, ?_⟩
  · exact ⟨admits_bigSend _ Env.roomy_not_lossy,
      Along.append.mpr ⟨hrun, admits_bigSend _ Env.roomy_not_lossy, trivial⟩⟩
  · rw [World.after, List.foldl_cons, List.foldl_append]
    generalize acts.foldl World.act _ = w at hwire hpending ⊢
    refine ⟨?_, le_trans ?_ (Nat.le_add_right _ _)⟩
    · show Ep.sendsPending ((w 0).act (bigSend .roomy)) 1 = 2
      unfold Ep.sendsPending
      rw [hpending]
      simp [htype, htype', hid, hid']
    · show 2 ≤ Ep.requestsOut ((w 0).act (bigSend .roomy)) 1
      unfold Ep.requestsOut
      rw [hwire]
      simp [ctl?_bigRequest]
