import RdsProv.PollLoop
import RdsProv.Accounting

/-!
# A pass of progress

The application knows nothing of the actions of the machine: it calls the entry points,
and everything else happens in `rds_ep_progress`, which `fi_cq_read` runs. A pass retries
what is parked, polls the ring of every peer that is `READY`, and takes what the socket
has, up to its budget.

Two things are shown. A pass is a run of the machine, on the same state
(`Ep.call_run`), so that whatever holds along runs of actions holds between calls of
the application. And the poll of the rings is complete: of every ring whose peer is `READY`
as the pass begins, exactly those slots are consumed that have arrived, up to the first
that has not, and these slots are delivered, whatever the slots of other rings contain
(`rdsRingProgress_drains`).
-/

/-! ## Runs -/

/-- What the receive loop does with a message: an action for each notification, and one for
the datagram unless it is truncated. -/
def RecvMsg.acts (env : Env) (msg : RecvMsg) : List EpAct :=
  msg.notifies.map (fun n => .notify env n.1 n.2)
    ++ if msg.truncated then [] else [.recv env msg.src msg.bytes]

theorem rdsRecvMsg_eq (env : Env) (ep : Ep) (msg : RecvMsg) :
    rdsRecvMsg env ep msg = (msg.acts env).foldl Ep.act ep := by
  have hreap : rdsReapNotifies env ep msg
      = (msg.notifies.map (fun n => EpAct.notify env n.1 n.2)).foldl Ep.act ep := by
    rw [List.foldl_map]
    rfl
  unfold rdsRecvMsg RecvMsg.acts
  rw [List.foldl_append, ← hreap]
  split
  · rfl
  · rfl

theorem foldl_rdsRecvMsg (env : Env) (ep : Ep) (msgs : List RecvMsg) :
    msgs.foldl (rdsRecvMsg env) ep = (msgs.flatMap (RecvMsg.acts env)).foldl Ep.act ep := by
  induction msgs generalizing ep with
  | nil => rfl
  | cons msg msgs ih =>
    rw [List.foldl_cons, List.flatMap_cons, List.foldl_append, ih, rdsRecvMsg_eq]

/-- An action of polling. -/
def EpAct.isPoll : EpAct → Bool
  | .poll .. | .flush .. => true
  | _ => false

/-! ## Polls -/

/-- The slot at a count has arrived: it carries the stamp of its lap. -/
def Peer.Arrived (slots : UInt32) (p : Peer) (count : UInt64) : Prop :=
  (p.rxRing (lapPlace slots count)).gen = lapStamp slots count

/-- The slots from where the consumer stands. -/
def Peer.upcoming (slots : UInt32) (p : Peer) (n : ℕ) : List RingSlot :=
  (List.range n).map fun i => p.rxRing (lapPlace slots (p.rxHead + UInt64.ofNat i))

/-- The slots that the consumer has passed since. -/
def Peer.passed (slots : UInt32) (p q : Peer) : List RingSlot :=
  p.upcoming slots (q.rxHead - p.rxHead).toNat

/-- **A ring is drained**: from where the consumer stood as many slots were consumed as had
arrived, in their order, and the next has not arrived. -/
structure Peer.Drained (slots : UInt32) (p q : Peer) : Prop where
  ring : q.rxRing = p.rxRing
  consumed : ∃ n ≤ slots.toNat, q.rxHead = p.rxHead + UInt64.ofNat n
    ∧ ∀ i < n, p.Arrived slots (p.rxHead + UInt64.ofNat i)
  done : ¬ q.Arrived slots q.rxHead

theorem Peer.nextSlot_eq_none {slots : UInt32} {p : Peer} :
    p.nextSlot slots = none ↔ ¬ p.Arrived slots p.rxHead := by
  unfold Peer.nextSlot
  dsimp only
  split
  · exact iff_of_false (Option.some_ne_none _) (fun h => h ‹_›)
  · exact iff_of_true rfl ‹_›

theorem Peer.passed_eq {slots : UInt32} {p q : Peer} {n : ℕ} (hn : n ≤ slots.toNat)
    (hhead : q.rxHead = p.rxHead + UInt64.ofNat n) : p.passed slots q = p.upcoming slots n := by
  have hlt : n < 2 ^ 64 := hn.trans_lt (slots.toNat_lt.trans (by decide))
  rw [Peer.passed, hhead, UInt64.add_comm, UInt64.add_sub_cancel, UInt64.toNat_ofNat_of_lt' hlt]

/-- **A run of polls**, with the slots it delivers, each with the peer it came from. A round
hands the slot that the consumer stands before to `rds_ring_deliver`, and the rest of the round
is outward; credit is returned in between. -/
inductive Ep.Polls (env : Env) : Ep → List (UInt64 × RingSlot) → Ep → Prop
  | refl (ep : Ep) : Ep.Polls env ep [] ep
  | round {ep d e : Ep} {b : UInt64} {p : Peer} {slot : RingSlot} {log : List (UInt64 × RingSlot)}
      (hp : rdsPeerFind ep b = some p) (hslot : p.nextSlot ep.cfg.geom.slots = some slot)
      (hround : rdsRingPollSlot env ep b = some d)
      (hdeliver : (rdsRingDeliver env (ep.setPeer (p.absorbAck slot.ack)) p.sa b slot).Outer d)
      (hrest : Ep.Polls env d log e) : Ep.Polls env ep ((b, slot) :: log) e
  | credit {ep e : Ep} {b : UInt64} {log : List (UInt64 × RingSlot)}
      (hrest : Ep.Polls env (rdsRingFlushCredit env ep b) log e) : Ep.Polls env ep log e

namespace Ep.Polls

variable {env : Env} {ep d e : Ep} {a b : UInt64} {p : Peer} {log log' : List (UInt64 × RingSlot)}

theorem trans (h : ep.Polls env log d) (h' : d.Polls env log' e) :
    ep.Polls env (log ++ log') e := by
  induction h with
  | refl => exact h'
  | round hp hslot hround hdeliver _ ih => exact .round hp hslot hround hdeliver (ih h')
  | credit _ ih => exact .credit (ih h')

/-- A run of polls is a run of actions. -/
theorem acts (h : ep.Polls env log e) :
    ∃ acts : List EpAct, (∀ a ∈ acts, a.isPoll = true) ∧ acts.foldl Ep.act ep = e := by
  induction h with
  | refl => exact ⟨[], List.forall_mem_nil _, rfl⟩
  | @round ep d e b p slot log hp hslot hround hdeliver hrest ih =>
    obtain ⟨acts, hacts, rfl⟩ := ih
    refine ⟨.poll env b :: acts, List.forall_mem_cons.mpr ⟨rfl, hacts⟩, ?_⟩
    have hact : ep.act (.poll env b) = d := by
      show (rdsRingPollSlot env ep b).getD ep = d
      rw [hround, Option.getD_some]
    rw [List.foldl_cons, hact]
  | @credit ep e b log hrest ih =>
    obtain ⟨acts, hacts, rfl⟩ := ih
    exact ⟨.flush env b :: acts, List.forall_mem_cons.mpr ⟨rfl, hacts⟩, rfl⟩

/-- A round that finds a slot. -/
theorem single (hp : rdsPeerFind ep b = some p) (h : rdsRingPollSlot env ep b = some e) :
    p.Arrived ep.cfg.geom.slots p.rxHead
      ∧ ep.Polls env [(b, p.rxRing (lapPlace ep.cfg.geom.slots p.rxHead))] e := by
  obtain ⟨hnone, -⟩ | ⟨p', slot, e', hp', hslot, he, hdeliver⟩ := rdsRingPollSlot_outer env ep b
  · rw [hnone] at h
    cases h
  obtain rfl : p' = p := Option.some.inj (hp'.symm.trans hp)
  obtain rfl : e' = e := Option.some.inj (he.symm.trans h)
  rw [rdsPeerFind_addr hp] at hdeliver
  refine ⟨?_, ?_⟩
  · by_contra hno
    rw [Peer.nextSlot_eq_none.mpr hno] at hslot
    cases hslot
  · obtain rfl : slot = p'.rxRing (lapPlace ep.cfg.geom.slots p'.rxHead) :=
      Peer.nextSlot_eq_some hslot
    exact .round hp hslot he hdeliver (.refl e')

/-- **The rounds of a pass** deliver the slots from where the consumer stood, and all of them
had arrived. -/
theorem rounds {n : ℕ} (hp : rdsPeerFind ep b = some p)
    (h : rdsRingPollRounds env b n ep = some e) :
    (∀ i < n, p.Arrived ep.cfg.geom.slots (p.rxHead + UInt64.ofNat i))
      ∧ ep.Polls env ((p.upcoming ep.cfg.geom.slots n).map (Prod.mk b)) e := by
  induction n generalizing e with
  | zero =>
    cases h
    exact ⟨fun i hi => absurd hi (Nat.not_lt_zero i), .refl ep⟩
  | succ n ih =>
    rw [rdsRingPollRounds_succ, Option.bind_eq_some_iff] at h
    obtain ⟨d, hd, hround⟩ := h
    obtain ⟨hall, hpolls⟩ := ih hd
    -- the last round stands as many slots on
    obtain ⟨hcfg, q, hq, hring, hhead⟩ := rdsRingPollRounds_advances hp hd
    obtain ⟨harrived, hlast⟩ := single hq hround
    rw [hcfg, hring, hhead] at hlast
    unfold Peer.Arrived at harrived
    rw [hcfg, hring, hhead] at harrived
    refine ⟨fun i hi => ?_, ?_⟩
    · obtain hlt | rfl := Nat.lt_succ_iff_lt_or_eq.mp hi
      · exact hall i hlt
      · exact harrived
    · rw [Peer.upcoming, List.range_succ, List.map_append, List.map_append]
      exact hpolls.trans hlast

end Ep.Polls

section PollPeer

variable (env : Env) {ep : Ep} {a : UInt64} {p : Peer}

/-- Returning credit leaves a drained ring drained. -/
theorem rdsRingFlushCredit_drained {slots : UInt32} {q : Peer} (hq : rdsPeerFind ep a = some q)
    (h : p.Drained slots q) : ∃ r, rdsPeerFind (rdsRingFlushCredit env ep a) a = some r
      ∧ p.Drained slots r ∧ r.rxHead = q.rxHead := by
  refine rdsRingFlushCredit_elim ⟨q, hq, h, rfl⟩ (fun q' hq' => ?_)
  obtain rfl : q' = q := Option.some.inj (hq'.symm.trans hq)
  have haddr : q'.addr = a := rdsPeerFind_addr hq
  obtain ⟨-, r, hr, hring, hhead⟩ := rdsRingReturnCredit_keeps env (haddr.symm ▸ hq)
  rw [haddr] at hr
  refine ⟨r, hr, ⟨hring.trans h.ring, ?_, ?_⟩, hhead⟩
  · rw [hhead]
    exact h.consumed
  · unfold Peer.Arrived
    rw [hring, hhead]
    exact h.done

/-- **A pass over a ring drains it**, and delivers the slots it consumes. -/
theorem rdsRingPollPeer_drains (hp : rdsPeerFind ep a = some p) :
    ∃ q, rdsPeerFind (rdsRingPollPeer env ep a) a = some q ∧ p.Drained ep.cfg.geom.slots q
      ∧ ep.Polls env ((p.passed ep.cfg.geom.slots q).map (Prod.mk a))
        (rdsRingPollPeer env ep a) := by
  obtain ⟨n, hn, e, he, hend, -, heq⟩ := rdsRingPollPeer_ends env ep a
  obtain ⟨harrived, hpolls⟩ := Ep.Polls.rounds hp he
  obtain ⟨hcfg, q, hq, hring, hhead⟩ := rdsRingPollRounds_advances hp he
  have hdone : ¬ q.Arrived ep.cfg.geom.slots q.rxHead := by
    rw [← hcfg]
    exact Peer.nextSlot_eq_none.mp ((rdsRingPollSlot_eq_none hq).mp hend)
  have hdrained : p.Drained ep.cfg.geom.slots q := ⟨hring, ⟨n, hn, hhead, harrived⟩, hdone⟩
  rw [heq]
  split
  · obtain ⟨r, hr, hdrained', hsame⟩ := rdsRingFlushCredit_drained env hq hdrained
    refine ⟨r, hr, hdrained', ?_⟩
    rw [Peer.passed_eq hn (hsame.trans hhead), ← List.append_nil (List.map _ _)]
    exact hpolls.trans (.credit (.refl _))
  · refine ⟨q, hq, hdrained, ?_⟩
    rw [Peer.passed_eq hn hhead]
    exact hpolls

end PollPeer

/-- What `rds_ring_progress` does for one peer. -/
def rdsRingVisit (env : Env) (ep : Ep) (addr : UInt64) : Ep :=
  (rdsPeerFind ep addr).elim ep
    (fun p => if p.state = .ready then rdsRingPollPeer env ep addr else ep)

theorem rdsRingProgress_eq (env : Env) (ep : Ep) (hon : ep.cfg.eagerRdma = true) :
    rdsRingProgress env ep = (ep.peers.map (·.addr)).foldl (rdsRingVisit env) ep := by
  unfold rdsRingProgress
  rw [hon, if_neg (by simp)]
  refine List.foldl_ext _ _ ep (fun e addr _ => ?_)
  unfold rdsRingVisit
  cases rdsPeerFind e addr with
  | none => rfl
  | some p => rfl

/-- What is delivered on a visit comes from the peer that is visited. -/
theorem Ep.Polls.visit (env : Env) (ep : Ep) (b : UInt64) :
    ∃ log, ep.Polls env log (rdsRingVisit env ep b) ∧ ∀ x ∈ log, x.1 = b := by
  have hidle : ∃ log, ep.Polls env log ep ∧ ∀ x ∈ log, x.1 = b :=
    ⟨[], refl ep, List.forall_mem_nil _⟩
  unfold rdsRingVisit
  cases hp : rdsPeerFind ep b with
  | none => exact hidle
  | some p =>
    rw [Option.elim_some]
    split
    · obtain ⟨q, -, -, hpolls⟩ := rdsRingPollPeer_drains env hp
      exact ⟨_, hpolls, List.forall_mem_map.mpr fun _ _ => rfl⟩
    · exact hidle

/-- **The poll of the rings is a run of polls.** -/
theorem Ep.Polls.ringProgress (env : Env) (ep : Ep) :
    ∃ log, ep.Polls env log (rdsRingProgress env ep) := by
  cases hon : ep.cfg.eagerRdma with
  | false =>
    unfold rdsRingProgress
    rw [hon]
    exact ⟨[], refl ep⟩
  | true =>
    rw [rdsRingProgress_eq env ep hon]
    generalize ep.peers.map (·.addr) = addrs
    clear hon
    induction addrs generalizing ep with
    | nil => exact ⟨[], refl ep⟩
    | cons addr addrs ih =>
      obtain ⟨log, hvisit, -⟩ := visit env ep addr
      obtain ⟨log', hrest⟩ := ih (rdsRingVisit env ep addr)
      exact ⟨log ++ log', hvisit.trans hrest⟩

/-! ## Calls -/

/-- **What an endpoint is driven by**: calls of the application, passes of progress over what
the socket has to offer, and what lands in its memory. -/
inductive EpCall where
  /-- A call that posts, cancels or transfers, or a landing. -/
  | direct (a : EpAct)
  /-- A pass of progress. -/
  | progress (env : Env) (msgs : List RecvMsg)

/-- The actions that only a pass of progress takes. -/
def EpAct.ofProgress : EpAct → Bool
  | .recv .. | .notify .. | .retry _ | .poll .. | .flush .. => true
  | _ => false

namespace Ep

/-- One call. -/
def call (ep : Ep) : EpCall → Ep
  | .direct a => ep.act a
  | .progress env msgs => rdsEpProgress env ep msgs

/-- What is asked of a call: a pass is notified of operations that are in flight when it
comes to them. -/
def Allows (ep : Ep) : EpCall → Prop
  | .direct a => a.ofProgress = false
  | .progress env msgs => Along Ep.act Ep.Admits
      (rdsRingProgress env (rdsProgressDeferred env ep).1)
      ((msgs.take rdsProgressBudget).flatMap (RecvMsg.acts env))

/-- What is always possible. -/
theorem admits_of_isPoll {a : EpAct} (ha : a.isPoll = true) (ep : Ep) : ep.Admits a := by
  cases a with
  | poll | flush => trivial
  | _ => cases ha

/-- **A call is a run of actions.** -/
theorem call_run (ep : Ep) (c : EpCall) (h : ep.Allows c) :
    ∃ acts, Along Ep.act Ep.Admits ep acts ∧ acts.foldl Ep.act ep = ep.call c := by
  cases c with
  | direct a =>
    refine ⟨[a], ⟨?_, trivial⟩, rfl⟩
    cases a with
    | notify => cases h
    | _ => trivial
  | progress env msgs =>
    obtain ⟨log, hlog⟩ := Ep.Polls.ringProgress env (rdsProgressDeferred env ep).1
    obtain ⟨polls, hpolls, hring⟩ := hlog.acts
    have hruns : Along Ep.act Ep.Admits (rdsProgressDeferred env ep).1 polls := by
      refine Along.imp (fun ep a ha => admits_of_isPoll ha ep) (Along.of_forall hpolls)
    refine ⟨(.retry env :: polls) ++ (msgs.take rdsProgressBudget).flatMap (RecvMsg.acts env),
      Along.append.mpr ⟨⟨trivial, hruns⟩, ?_⟩, ?_⟩
    · rw [List.foldl_cons]
      have hring : polls.foldl Ep.act (ep.act (.retry env))
          = rdsRingProgress env (rdsProgressDeferred env ep).1 := hring
      rw [hring]
      exact h
    · show _ = rdsEpProgress env ep msgs
      unfold rdsEpProgress
      dsimp only
      rw [foldl_rdsRecvMsg, List.foldl_append, List.foldl_cons, ← hring]
      rfl

end Ep

/-- **Between calls.** However an endpoint is driven through its entry points – posts, sends,
transfers, cancellations and passes of progress over whatever the socket offers – it is in a
state that the machine reaches. So between any two calls no posted receive takes a message
that is waiting, and until the ids wrap the rendezvous receives are accounted for. -/
theorem between_calls (cfg : EpCfg) (domain : Domain) (calls : List EpCall)
    (h : Along Ep.call Ep.Allows (Ep.init cfg domain) calls) :
    (∃ acts, Ep.Runs cfg domain acts
        ∧ Ep.after cfg domain acts = calls.foldl Ep.call (Ep.init cfg domain))
      ∧ (∀ k, ∀ r ∈ (calls.foldl Ep.call (Ep.init cfg domain)).posted k,
          ∀ m ∈ (calls.foldl Ep.call (Ep.init cfg domain)).unexp k,
            rdsMatches k r m.addr m.hdr.tag = false)
      ∧ ((calls.foldl Ep.call (Ep.init cfg domain)).idsGiven < 2 ^ 64 →
          (calls.foldl Ep.call (Ep.init cfg domain)).Accounted) := by
  obtain ⟨acts, hruns, hafter⟩ := Along.refines Ep.call_run h
  have hafter : Ep.after cfg domain acts = calls.foldl Ep.call (Ep.init cfg domain) := hafter
  refine ⟨⟨acts, hruns, hafter⟩, ?_, ?_⟩
  · rw [← hafter]
    intro k r hr m hm
    have hinv := Ep.MatchInv.after cfg domain acts
    have hno := hinv.complete k r hr m hm
    rw [RxEntry.takes, hinv.kind k m hm] at hno
    exact hno
  · rw [← hafter]
    exact fun hids => (Ep.Sound.after hruns hids).accounted

/-- A receive is posted, and a pass takes in the request that it matches. -/
def receiveThenProgress : List EpCall :=
  let calm := Env.calm (fun _ _ => .error fiEnomem)
  [.direct (.postRecv calm [⟨4096, 100⟩] fiAddrUnspec 0 0 7 0 false),
    .progress calm
      [⟨[], 20, (rtsHdr false 0 1 0 0 100 5).encode ++ encodeSegs [⟨11, 0, 100⟩], false⟩]]

/-- The receive is then pending and accounted for. -/
theorem receiveThenProgress_accounted :
    (receiveThenProgress.foldl Ep.call (Ep.init (EpCfg.standard false [10, 20] 10)
        (Domain.opened false (some 3) 0 0))).pending.length = 1
      ∧ (receiveThenProgress.foldl Ep.call (Ep.init (EpCfg.standard false [10, 20] 10)
        (Domain.opened false (some 3) 0 0))).Accounted := by
  refine ⟨by decide +kernel, (between_calls _ _ receiveThenProgress ?_).2.2 (by decide +kernel)⟩
  exact ⟨rfl, ⟨trivial, trivial⟩, trivial⟩

/-! ## Completeness of the polls -/

/-- **A step that concerns one peer**: the records of the others are as they were. -/
structure Ep.OnlyPeer (b : UInt64) (ep e : Ep) : Prop where
  cfg : e.cfg = ep.cfg
  find : ∀ a, a ≠ b → rdsPeerFind e a = rdsPeerFind ep a

namespace Ep.OnlyPeer

variable {b : UInt64} {ep e e' : Ep} (env : Env)

theorem of_eq (hcfg : e.cfg = ep.cfg) (hpeers : e.peers = ep.peers) : ep.OnlyPeer b e :=
  ⟨hcfg, fun a _ => by unfold rdsPeerFind; rw [hpeers]⟩

theorem refl (ep : Ep) : ep.OnlyPeer b ep := of_eq rfl rfl

theorem trans (h : ep.OnlyPeer b e) (h' : e.OnlyPeer b e') : ep.OnlyPeer b e' :=
  ⟨h'.cfg.trans h.cfg, fun a ha => (h'.find a ha).trans (h.find a ha)⟩

theorem ite {c : Prop} [Decidable c] (h : ep.OnlyPeer b e) (h' : ep.OnlyPeer b e') :
    ep.OnlyPeer b (if c then e else e') := by
  split
  · exact h
  · exact h'

theorem setPeer (ep : Ep) {q : Peer} (hq : q.addr = b) : ep.OnlyPeer b (ep.setPeer q) := by
  refine ⟨rfl, fun a ha => ?_⟩
  refine List.find?_modifyFirst_of_disjoint (fun r hr => ?_) ep.peers
  have hr : r.addr = b := by simpa [hq] using hr
  simp [hr, hq, Ne.symm ha]

theorem peerGet {ep e : Ep} {b : UInt64} {p? : Option Peer} (h : rdsPeerGet env ep b = (e, p?)) :
    ep.OnlyPeer b e := by
  rw [show e = (rdsPeerGet env ep b).1 from (congrArg Prod.fst h).symm]
  refine rdsPeerGet_elim (fun _ _ => refl ep) (fun _ _ => refl ep) (fun _ _ _ => of_eq rfl rfl)
    (fun sa e p _ _ _ hreg => ?_)
  obtain ⟨dom, q, hreg', hq, -⟩ := rdsPeerRegister_cases env { ep with tick := ep.tick + 4 } b sa
    (env.heap (ep.tick + 1)) (env.heap (ep.tick + 3))
  obtain ⟨rfl, rfl⟩ := Prod.mk.inj (hreg.symm.trans hreg')
  refine ⟨rfl, fun a ha => ?_⟩
  exact List.find?_cons_of_neg (by simpa [hq.addr] using Ne.symm ha)

/-- A handshake concerns the peer it came from. -/
theorem handleCtrl (ep : Ep) (hdr : Hdr) (payload : List UInt8) (b : UInt64) :
    ep.OnlyPeer b (rdsRingHandleCtrl env ep hdr payload b) := by
  have hctrl (e : Ep) (p : Peer) : e.OnlyPeer b (rdsRingSendCtrl env e p rdsOpRingAck) := by
    obtain ⟨hside, hpeers, -, -⟩ := rdsRingSendCtrl_cases env e p rdsOpRingAck (.inr rfl)
    exact of_eq hside.cfg hpeers
  exact rdsRingHandleCtrl_elim (refl ep) (fun _ h => peerGet env h) (fun _ _ h => peerGet env h)
    (fun e _ h _ _ => (peerGet env h).trans (setPeer e (rdsPeerGet_find h).1))
    (fun e p h _ _ _ => ((peerGet env h).trans (ite (hctrl e p) (refl e))).trans
      (setPeer _ (rdsPeerGet_find h).1))

theorem handleInbound (ep : Ep) (hdr : Hdr) (payload : List UInt8) (src : SockAddr) (b : UInt64) :
    ep.OnlyPeer b (rdsHandleInbound env ep hdr payload src b) := by
  have hoff {e : Ep} (h : ep.OffRing e) : ep.OnlyPeer b e := of_eq h.cfg h.peers
  exact rdsHandleInbound_elim (refl ep) (fun p _ _ => hoff (.pendingComplete ep p))
    (fun _ _ => handleCtrl env ep hdr payload b)
    (fun _ _ => hoff (Ep.Inward.handleMessage env ep _).toOffRing)

theorem returnCredit (ep : Ep) {p : Peer} (hp : p.addr = b) :
    ep.OnlyPeer b (rdsRingReturnCredit env ep p) := by
  obtain ⟨-, h⟩ | ⟨-, h⟩ := rdsRingReturnCredit_cases env ep p
  · rw [h]
    exact (of_eq rfl rfl : ep.OnlyPeer b { ep with tick := ep.tick + 1 }).trans (setPeer _ hp)
  · rw [h]
    refine (of_eq rfl rfl : ep.OnlyPeer b { ep with
      tick := ep.tick + 1
      writes := ep.writes ++ [({ p with creditTx := p.rxHead } : Peer).creditWrite] }).trans ?_
    exact setPeer _ hp

/-- **A round of polling concerns the peer that is polled.** -/
theorem pollSlot (ep : Ep) (b : UInt64) : ∀ e ∈ rdsRingPollSlot env ep b, ep.OnlyPeer b e := by
  intro e he
  obtain ⟨hnone, -⟩ | ⟨p, slot, e', hp, -, he', hlast⟩ := rdsRingPollSlot_cases env ep b
  · rw [hnone] at he
    cases he
  rw [he'] at he
  cases he
  have haddr : p.addr = b := rdsPeerFind_addr hp
  have habsorb : ep.OnlyPeer b (ep.setPeer (p.absorbAck slot.ack)) :=
    setPeer ep ((Peer.Steady.absorbAck p slot.ack).addr.trans haddr)
  have hdeliver : ep.OnlyPeer b
      (rdsRingDeliver env (ep.setPeer (p.absorbAck slot.ack)) p.sa p.addr slot) := by
    refine habsorb.trans ?_
    rw [haddr]
    exact rdsRingDeliver_elim (refl _) (fun hdr payload => handleInbound env _ hdr payload _ b)
  obtain rfl | ⟨q, hq, hpassed⟩ := hlast
  · exact hdeliver
  have hqaddr : q.addr = b := rdsPeerFind_addr hq
  have hconsume := hdeliver.trans (setPeer _ (q := { q with rxHead := q.rxHead + 1 }) hqaddr)
  obtain rfl | rfl := hpassed
  · exact hconsume
  · exact hconsume.trans (returnCredit env _ hqaddr)

theorem pollLoop (b : UInt64) (fuel : ℕ) (ep : Ep) (drained : Bool) :
    ep.OnlyPeer b (rdsRingPollLoop env b fuel ep drained).1 := by
  induction fuel generalizing ep drained with
  | zero => exact refl ep
  | succ fuel ih =>
    rw [rdsRingPollLoop]
    cases hslot : rdsRingPollSlot env ep b with
    | none => exact refl ep
    | some e => exact (pollSlot env ep b e hslot).trans (ih e true)

theorem visit (ep : Ep) (b : UInt64) : ep.OnlyPeer b (rdsRingVisit env ep b) := by
  unfold rdsRingVisit
  cases rdsPeerFind ep b with
  | none => exact refl ep
  | some p =>
    refine ite ?_ (refl ep)
    have hloop := pollLoop env b ep.cfg.geom.slots.toNat ep false
    unfold rdsRingPollPeer
    generalize rdsRingPollLoop env b ep.cfg.geom.slots.toNat ep false = r at hloop ⊢
    refine ite (hloop.trans ?_) hloop
    exact rdsRingFlushCredit_elim (refl _) (fun q hq => returnCredit env _ (rdsPeerFind_addr hq))

end Ep.OnlyPeer

section Drains

variable (env : Env) {ep : Ep} {a : UInt64} {p : Peer}

/-- A ring that is drained stays as it is, and nothing of it is delivered. -/
theorem foldl_rdsRingVisit_drained (hp : rdsPeerFind ep a = some p)
    (hdone : ¬ p.Arrived ep.cfg.geom.slots p.rxHead) (addrs : List UInt64) :
    rdsPeerFind (addrs.foldl (rdsRingVisit env) ep) a = some p
      ∧ ∃ log, ep.Polls env log (addrs.foldl (rdsRingVisit env) ep) ∧ ∀ x ∈ log, x.1 ≠ a := by
  induction addrs generalizing ep with
  | nil => exact ⟨hp, [], .refl ep, List.forall_mem_nil _⟩
  | cons b addrs ih =>
    rw [List.foldl_cons]
    by_cases hb : a = b
    · subst hb
      have hnone : rdsRingPollSlot env ep a = none :=
        (rdsRingPollSlot_eq_none hp).mpr (Peer.nextSlot_eq_none.mpr hdone)
      have hsame : rdsRingVisit env ep a = ep := by
        unfold rdsRingVisit
        rw [hp, Option.elim_some]
        split
        · unfold rdsRingPollPeer
          rw [rdsRingPollLoop_of_rounds (n := 0) rfl hnone (Nat.zero_le _) false]
          rfl
        · rfl
      rw [hsame]
      exact ih hp hdone
    · have honly := Ep.OnlyPeer.visit env ep b
      obtain ⟨log, hvisit, hlog⟩ := Ep.Polls.visit env ep b
      obtain ⟨hfind, log', hrest, hlog'⟩ := ih ((honly.find a hb).trans hp)
        (by rw [honly.cfg]; exact hdone)
      refine ⟨hfind, log ++ log', hvisit.trans hrest, List.forall_mem_append.mpr ⟨?_, hlog'⟩⟩
      intro x hx hxa
      exact hb (hxa.symm.trans (hlog x hx))

/-- Peers are visited one after the other. -/
theorem foldl_rdsRingVisit_drains {addrs : List UInt64} (ha : a ∈ addrs)
    (hp : rdsPeerFind ep a = some p) (hready : p.state = .ready) :
    ∃ q log, rdsPeerFind (addrs.foldl (rdsRingVisit env) ep) a = some q
      ∧ p.Drained ep.cfg.geom.slots q ∧ ep.Polls env log (addrs.foldl (rdsRingVisit env) ep)
      ∧ log.filter (fun x => x.1 = a) = (p.passed ep.cfg.geom.slots q).map (Prod.mk a) := by
  induction addrs generalizing ep with
  | nil => cases ha
  | cons b addrs ih =>
    have honly := Ep.OnlyPeer.visit env ep b
    rw [List.foldl_cons]
    by_cases hb : a = b
    · subst hb
      -- its own visit drains the ring, and those that follow leave it
      obtain ⟨q, hq, hdrained, hpolls⟩ := rdsRingPollPeer_drains env hp
      have hvisit : rdsRingVisit env ep a = rdsRingPollPeer env ep a := by
        unfold rdsRingVisit
        rw [hp, Option.elim_some, if_pos hready]
      rw [← hvisit] at hq hpolls
      obtain ⟨hfind, log, hrest, hlog⟩ := foldl_rdsRingVisit_drained env hq
        (by rw [honly.cfg]; exact hdrained.done) addrs
      refine ⟨q, _, hfind, hdrained, hpolls.trans hrest, ?_⟩
      have hown : ∀ x ∈ (p.passed ep.cfg.geom.slots q).map (Prod.mk a), decide (x.1 = a) = true :=
        List.forall_mem_map.mpr fun _ _ => decide_eq_true rfl
      rw [List.filter_append, List.filter_eq_self.mpr hown, List.filter_eq_nil_iff.mpr
        (fun x hx => by simpa using hlog x hx), List.append_nil]
    · obtain hself | hrest := List.mem_cons.mp ha
      · exact absurd hself hb
      obtain ⟨log, hvisit, hlog⟩ := Ep.Polls.visit env ep b
      obtain ⟨q, log', hq, hdrained, hpolls, hown⟩ := ih hrest ((honly.find a hb).trans hp)
      rw [honly.cfg] at hdrained hown
      refine ⟨q, log ++ log', hq, hdrained, hvisit.trans hpolls, ?_⟩
      have hnone : log.filter (fun x => x.1 = a) = [] := by
        refine List.filter_eq_nil_iff.mpr (fun x hx => ?_)
        simpa [hlog x hx] using Ne.symm hb
      rw [List.filter_append, hnone, List.nil_append, hown]

/-- **`rds_ring_progress` is complete.** The memory of the rings does not change during a pass.
Of the ring of every peer that is `READY` as the pass begins, exactly those slots are consumed
that have arrived, in order and up to the first that has not; and what the pass delivers of this
ring are these slots, in order and each once. This holds whatever the slots, those of other peers
too, contain. -/
theorem rdsRingProgress_drains (hon : ep.cfg.eagerRdma = true) (hp : rdsPeerFind ep a = some p)
    (hready : p.state = .ready) :
    ∃ q log, rdsPeerFind (rdsRingProgress env ep) a = some q ∧ p.Drained ep.cfg.geom.slots q
      ∧ ep.Polls env log (rdsRingProgress env ep)
      ∧ log.filter (fun x => x.1 = a) = (p.passed ep.cfg.geom.slots q).map (Prod.mk a) := by
  rw [rdsRingProgress_eq env ep hon]
  refine foldl_rdsRingVisit_drains env ?_ hp hready
  rw [← rdsPeerFind_addr hp]
  exact List.mem_map_of_mem (List.mem_of_find?_eq_some hp)

end Drains

/-- A peer has shaken hands and sent a message: the next pass delivers it, and nothing else. -/
theorem first_pass_drains :
    let ep := Ep.after creditCfg (Domain.opened false (some 3) 0 0) (withheldRun.take 2)
    ∃ p q log slot, rdsPeerFind ep 0 = some p ∧ p.nextSlot ep.cfg.geom.slots = some slot
      ∧ rdsPeerFind (rdsRingProgress fullEnv ep) 0 = some q
      ∧ p.Drained ep.cfg.geom.slots q ∧ ep.Polls fullEnv log (rdsRingProgress fullEnv ep)
      ∧ log.filter (fun x => x.1 = 0) = [(0, slot)] := by
  intro ep
  have hstate : (rdsPeerFind ep 0).map (fun p =>
        (p.state, p.rxHead, (p.nextSlot ep.cfg.geom.slots).isSome)) = some (.ready, 0, true)
      ∧ (rdsPeerFind (rdsRingProgress fullEnv ep) 0).map (·.rxHead) = some 1 := by
    decide +kernel
  obtain ⟨p, hp, hnext⟩ := Option.map_eq_some_iff.mp hstate.1
  obtain ⟨hready, hhead, hslot⟩ : p.state = .ready ∧ p.rxHead = 0
      ∧ (p.nextSlot ep.cfg.geom.slots).isSome := by simpa using hnext
  obtain ⟨slot, hslot⟩ := Option.isSome_iff_exists.mp hslot
  obtain ⟨q, log, hq, hdrained, hpolls, hlog⟩ := rdsRingProgress_drains fullEnv
    (show ep.cfg.eagerRdma = true by decide +kernel) hp hready
  have hhead' : q.rxHead = 1 := by simpa [hq] using hstate.2
  refine ⟨p, q, log, slot, hp, hslot, hq, hdrained, hpolls, ?_⟩
  have hpassed : p.passed ep.cfg.geom.slots q = [slot] := by
    rw [Peer.passed, hhead, hhead', Peer.nextSlot_eq_some hslot, hhead]
    show [p.rxRing (lapPlace _ (p.rxHead + 0))] = _
    rw [hhead]
    rfl
  rw [hlog, hpassed]
  rfl
