import RdsProv.Carriers
import RdsProv.Conservation
import RdsProv.DatagramSize
import RdsProv.Ledger

/-!
# Messages are received in the order of the calls

That matching is in order says that of two messages a receive could take, it takes the one
that arrived first. What an application asks for is more: of two messages *sent to it by the
same endpoint*, the one whose call was made first. Between the two statements are the call,
which puts a datagram on the socket, the network, and the progress pass that takes it off.

`Fabric` has all of it: any number of endpoints without rings, which is the default, and
between any two of them a network that keeps the order of datagrams. It keeps what neither
side knows, the calls that were accepted (`Fabric.calls`) and the messages that have entered
a matching engine (`Fabric.heard`).

Three orders are then one. An accepted call puts exactly one message on the socket, and
nothing else an endpoint does puts one there (`Ep.act_accepted`, `Ep.act_quiet`). The network
keeps the order. And what an endpoint has heard is in one of two places, each message once:
it is unexpected, or was given to a receive (`Ep.HasHeard`). `received_in_call_order` puts
them together.

A datagram that is longer than the receiver's buffer is dropped, and its message with it. The
two configurations and the sizes of the source decide that at the call (`Call.fits`), so what is
received is what those calls sent whose datagram fits.
-/

/-! ## What a call puts on the socket -/

/-- A call that was accepted, with the memory it was made over. -/
structure Call where
  req : SendReq
  mem : ℕ → UInt8

/-- **The message of a call**: the bytes the source had, or a request with one segment for each
chunk of the source. -/
def Call.Conveys (c : Call) (m : Message) : Prop :=
  m = c.req.eager c.mem
    ∨ ∃ id segs, List.Forall₂ Seg.Shapes segs (chunksOf c.req.iov) ∧ m = c.req.request id segs

/-- Whether the datagram of a call fits the buffer of the endpoint it is for. -/
def Call.fits (cfg peer : EpCfg) (c : Call) : Bool :=
  rdsHdrSize + cfg.dgramPayload c.req.iov ≤ peer.rxBufSize

/-- The call an action makes, if it is accepted. -/
def Ep.accepted? (ep : Ep) : EpAct → Option Call
  | .send env iov destAddr tag data context flags tagged =>
    if (rdsGenericSend env ep iov destAddr tag data context flags tagged).2 = .ok then
      some ⟨⟨iov, destAddr, tag, data, context, flags, tagged⟩, env.mem⟩ else none
  | .inject env buf len destAddr tag tagged =>
    if (rdsGenericInject env ep buf len destAddr tag tagged).2 = .ok then
      some ⟨⟨[⟨buf, len⟩], destAddr, tag, 0, 0, 0, tagged⟩, env.mem⟩ else none
  | _ => none

/-- The message a datagram carries. -/
def Dgram.conveyed? (d : Dgram) : Option Message := (Carrier.dgram d.bytes).message?

/-- The message a datagram brings to an endpoint: one that is longer than the buffer is
dropped. -/
def Dgram.brings? (peer : EpCfg) (d : Dgram) : Option Message :=
  if d.bytes.length ≤ peer.rxBufSize then d.conveyed? else none

/-- A datagram that is no message: a `FIN`, or a part of a handshake. -/
def Dgram.IsControl (d : Dgram) : Prop :=
  d.hdr.op = rdsOpFin ∨ d.hdr.op = rdsOpRingReq ∨ d.hdr.op = rdsOpRingAck

/-- **The datagram of a call**: where it goes, how long it is and what it carries. -/
def Call.Fills (c : Call) (cfg : EpCfg) (d : Dgram) : Prop :=
  rdsAvAddr cfg c.req.destAddr = some d.dst
    ∧ d.bytes.length = rdsHdrSize + cfg.dgramPayload c.req.iov
    ∧ ∃ m, d.conveyed? = some m ∧ c.Conveys m

/-- **A call without the ring** puts its message on the socket if it is accepted, and nothing
if it is not. -/
def Ep.PutsOne (ep : Ep) (c : Call) (r : Ep × Ret) : Prop :=
  (r.2 ≠ .ok ∧ r.1.wire = ep.wire)
    ∨ (r.2 = .ok ∧ ∃ d, r.1.wire = ep.wire ++ [d] ∧ c.Fills ep.cfg d)

section Calls

variable (env : Env) {ep : Ep} (r : SendReq) {dest : SockAddr}

theorem rdsSendEager_putsOne (hdest : rdsAvAddr ep.cfg r.destAddr = some dest)
    (hsmall : ofiTotalIovLen r.iov ≤ ep.cfg.eagerLimit) (genComp : Bool) :
    ep.PutsOne ⟨r, env.mem⟩
      (rdsSendEager env ep r.iov dest r.tag r.data r.context r.flags r.tagged genComp) := by
  refine rdsSendEager_elim (fun _ _ _ _ _ => .inl ⟨nofun, rfl⟩) (.inr ⟨rfl, ⟨ep.cfg.self, dest,
    (r.eager env.mem).1.encode ++ (r.eager env.mem).2⟩, rfl, hdest, ?_, _,
    Carrier.message?_dgram (r.message?_eager env.mem), .inl rfl⟩)
  rw [List.length_append, Hdr.encode_length, EpCfg.dgramPayload, if_pos hsmall]
  exact congrArg (rdsHdrSize + ·) (length_gather _ _)

theorem rdsSendRts_putsOne {e : Ep} (hoff : e.cfg.eagerRdma = false) (hwire : e.wire = ep.wire)
    (hdest : rdsAvAddr ep.cfg r.destAddr = some dest) (p : Pending) {hdr : Hdr}
    {segs : List UInt8} {m : Message} (hm : hdr.message? segs = some m)
    (hlen : segs.length = ep.cfg.dgramPayload r.iov) (hc : Call.Conveys ⟨r, env.mem⟩ m) :
    ep.PutsOne ⟨r, env.mem⟩ (rdsSendRts env e p (hdr.encode ++ segs) dest r.destAddr) := by
  refine rdsSendRts_elim (fun e' err h => ?_) (fun e' err h => ?_) (fun e' h => ?_) (fun e' h => ?_)
  · obtain ⟨rfl, -⟩ := rdsRingSend_of_off hoff h
    exact .inl ⟨nofun, hwire⟩
  · obtain ⟨rfl, -⟩ := rdsRingSend_of_off hoff h
    exact .inl ⟨nofun, hwire⟩
  · exact nomatch (rdsRingSend_of_off hoff h).2
  · obtain ⟨rfl, -⟩ := rdsRingSend_of_off hoff h
    refine .inr ⟨rfl, _, congrArg (· ++ _) hwire, hdest, ?_, m, Carrier.message?_dgram hm, hc⟩
    rw [List.length_append, Hdr.encode_length, hlen]

theorem rdsSendRndzv_putsOne (hoff : ep.cfg.eagerRdma = false)
    (hdest : rdsAvAddr ep.cfg r.destAddr = some dest)
    (hbig : ¬ ofiTotalIovLen r.iov ≤ ep.cfg.eagerLimit) (genComp : Bool) :
    ep.PutsOne ⟨r, env.mem⟩
      (rdsSendRndzv env ep r.iov dest r.tag r.data r.context r.flags r.tagged genComp
        r.destAddr) := by
  refine rdsSendRndzv_elim (fun _ _ => .inl ⟨nofun, rfl⟩) (fun _ _ _ _ _ _ _ => .inl ⟨nofun, rfl⟩)
    (fun dom segs mrs hreg hnseg _ _ => ?_)
  have hshapes := rdsRegChunks_shapes env ep.cfg.sock ep.domain.cacheEnabled (chunksOf r.iov)
    ep.domain
  rw [hreg] at hshapes
  have hconveys (id : UInt64) : Call.Conveys ⟨r, env.mem⟩ (r.request id segs) :=
    .inr ⟨id, segs, hshapes rfl, rfl⟩
  rw [← hnseg]
  refine rdsSendRts_putsOne env r ?_ ?_ hdest _ (message?_rtsHdr _ _ _ _ _ _ _) ?_ (hconveys _)
  · exact hoff
  · rfl
  · rw [encodeSegs_length, hnseg, EpCfg.dgramPayload, if_neg hbig]

/-- **What `rds_generic_send` puts on the socket.** -/
theorem rdsGenericSend_putsOne (hoff : ep.cfg.eagerRdma = false) :
    ep.PutsOne ⟨r, env.mem⟩ (r.call env ep) := by
  unfold SendReq.call
  refine rdsGenericSend_elim (fun _ => .inl ⟨nofun, rfl⟩)
    (fun dest _ e ret _ _ _ _ h hret => absurd (rdsRingSend_of_off hoff h).2 hret)
    (fun dest genComp e hdest _ _ hsmall h => ?_)
    (fun dest genComp _ hdest _ _ hbig =>
      rdsSendRndzv_putsOne env r hoff hdest (not_le.mpr hbig) genComp)
  obtain ⟨rfl, -⟩ := rdsRingSend_of_off hoff h
  exact rdsSendEager_putsOne env r hdest hsmall genComp

/-- **What `rds_generic_inject` puts on the socket.** -/
theorem rdsGenericInject_putsOne (hoff : ep.cfg.eagerRdma = false) (buf len : ℕ)
    (destAddr tag : UInt64) (tagged : Bool) :
    ep.PutsOne ⟨⟨[⟨buf, len⟩], destAddr, tag, 0, 0, 0, tagged⟩, env.mem⟩
      (rdsGenericInject env ep buf len destAddr tag tagged) := by
  refine rdsGenericInject_elim (fun _ => .inl ⟨nofun, rfl⟩) (.inl ⟨nofun, rfl⟩)
    (fun dest e ret _ _ h hret => absurd (rdsRingSend_of_off hoff h).2 hret)
    (fun dest e hdest hlen h => ?_)
  obtain ⟨rfl, -⟩ := rdsRingSend_of_off hoff h
  refine rdsSendEager_putsOne env ⟨[⟨buf, len⟩], destAddr, tag, 0, 0, 0, tagged⟩ hdest ?_ false
  rw [EpCfg.eagerLimit, if_neg (Bool.eq_false_iff.mp hoff), ofiTotalIovLen_single]
  exact hlen

end Calls

/-! ## What else is on the socket -/

/-- Nothing was put on the socket but control datagrams. -/
def Ep.Quiet (ep e : Ep) : Prop := ∃ l, e.wire = ep.wire ++ l ∧ ∀ d ∈ l, d.IsControl

theorem Ep.Quiet.of_wire {ep e : Ep} (h : e.wire = ep.wire) : ep.Quiet e :=
  ⟨[], by rw [h, List.append_nil], fun _ hd => (List.not_mem_nil hd).elim⟩

theorem Ep.Quiet.takesIn : Ep.TakesIn Ep.Quiet where
  trans h h' := by
    obtain ⟨l, hl, hctl⟩ := h
    obtain ⟨l', hl', hctl'⟩ := h'
    refine ⟨l ++ l', ?_, List.forall_mem_append.mpr ⟨hctl, hctl'⟩⟩
    rw [hl', hl, List.append_assoc]
  offRing h := by
    obtain ⟨l, hl, hfin⟩ := h.op_wire
    exact ⟨l, hl, fun d hd => .inl (hfin d hd)⟩
  handleCtrl env ep hdr payload srcFi := by
    have hquiet : ep.RingQuiet .any (rdsRingHandleCtrl env ep hdr payload srcFi) :=
      rdsRingHandleCtrl_quiet env ep hdr payload srcFi (fun _ _ => trivial)
    obtain ⟨l, hl, hctrl⟩ := hquiet.wire
    exact ⟨l, hl, fun d hd => .inr (hctrl d hd)⟩
  setPeer _ _ := .of_wire rfl
  returnCredit env ep p addr hp := by
    obtain ⟨-, h⟩ | ⟨-, h⟩ := rdsRingReturnCredit_cases env ep p
    · rw [h]
      exact .of_wire rfl
    · rw [h]
      exact .of_wire rfl

/-- **An accepted call puts one message on the socket**, and nothing else. -/
theorem Ep.act_accepted {ep : Ep} (hoff : ep.cfg.eagerRdma = false) {a : EpAct} {c : Call}
    (h : ep.accepted? a = some c) :
    ∃ d, (ep.act a).wire = ep.wire ++ [d] ∧ c.Fills ep.cfg d := by
  cases a with
  | send env iov destAddr tag data context flags tagged =>
    unfold Ep.accepted? at h
    dsimp only at h
    split at h
    · rename_i hok
      cases h
      exact ((rdsGenericSend_putsOne env ⟨iov, destAddr, tag, data, context, flags, tagged⟩
        hoff).resolve_left (fun hrefused => hrefused.1 hok)).2
    · cases h
  | inject env buf len destAddr tag tagged =>
    unfold Ep.accepted? at h
    dsimp only at h
    split at h
    · rename_i hok
      cases h
      exact ((rdsGenericInject_putsOne env hoff buf len destAddr tag tagged).resolve_left
        (fun hrefused => hrefused.1 hok)).2
    · cases h
  | _ => cases h

/-- **Nothing else puts a message on the socket.** -/
theorem Ep.act_quiet {ep : Ep} (hoff : ep.cfg.eagerRdma = false) {a : EpAct}
    (h : ep.accepted? a = none) : ep.Quiet (ep.act a) := by
  cases hdest : a.dest? with
  | none => exact Ep.Quiet.takesIn.act (fun _ _ _ _ => .of_wire rfl) ep hdest
  | some dest =>
    cases a with
    | send env iov destAddr tag data context flags tagged =>
      unfold Ep.accepted? at h
      dsimp only at h
      split at h
      · cases h
      · rename_i hret
        exact .of_wire ((rdsGenericSend_putsOne env
          ⟨iov, destAddr, tag, data, context, flags, tagged⟩ hoff).resolve_right
          (fun hok => hret hok.1)).2
    | inject env buf len destAddr tag tagged =>
      unfold Ep.accepted? at h
      dsimp only at h
      split at h
      · cases h
      · rename_i hret
        exact .of_wire ((rdsGenericInject_putsOne env hoff buf len destAddr tag
          tagged).resolve_right (fun hok => hret hok.1)).2
    | _ => cases hdest

/-! ## What an endpoint has heard -/

/-- An action that takes in a message: only a datagram or a slot can be one. -/
def EpAct.isArrival : EpAct → Bool
  | .recv .. => true
  | .poll .. => true
  | _ => false

/-- **What an endpoint has heard**, in the order of arrival, is what it has not yet given to a
receive and what it has, each message once. -/
structure Ep.HasHeard (ep : Ep) (l : List Unexp) : Prop where
  sorted : l.Pairwise (fun m m' => m.no < m'.no)
  old : ∀ m ∈ l, m.no < ep.arrivals
  placed : (l : Multiset Unexp) = ep.allUnexp + (ep.pairings.map Prod.fst : List Unexp)

namespace Ep.HasHeard

variable {ep ep' : Ep} {l : List Unexp}

theorem init (cfg : EpCfg) (domain : Domain) : (Ep.init cfg domain).HasHeard [] where
  sorted := List.Pairwise.nil
  old _ hm := (List.not_mem_nil hm).elim
  placed := rfl

/-- Nothing happened to the messages. -/
theorem of_eq (h : ep.HasHeard l) (harrivals : ep.arrivals ≤ ep'.arrivals)
    (hunexp : ep'.unexp = ep.unexp) (hpairings : ep'.pairings = ep.pairings) :
    ep'.HasHeard l where
  sorted := h.sorted
  old m hm := (h.old m hm).trans_le harrivals
  placed := by
    have hall : ep'.allUnexp = ep.allUnexp := by
      unfold Ep.allUnexp
      rw [hunexp]
    rw [hall, hpairings]
    exact h.placed

theorem unmatched (h : ep.HasHeard l) (hu : ep.Unmatched ep') : ep'.HasHeard l :=
  h.of_eq hu.arrivals hu.unexp hu.pairings

/-- A message arrives. -/
theorem arrive (h : ep.HasHeard l) {m : Unexp} (hno : m.no = ep.arrivals)
    (harrivals : ep.arrivals < ep'.arrivals)
    (hplaced : ep'.allUnexp + (ep'.pairings.map Prod.fst : List Unexp)
      = ep.allUnexp + (ep.pairings.map Prod.fst : List Unexp) + {m}) : ep'.HasHeard (l ++ [m]) where
  sorted := by
    refine List.pairwise_append.mpr ⟨h.sorted, List.pairwise_singleton _ _, fun a ha b hb => ?_⟩
    rw [List.mem_singleton.mp hb, hno]
    exact h.old a ha
  old := by
    refine List.forall_mem_append.mpr ⟨fun a ha => (h.old a ha).trans harrivals, fun a ha => ?_⟩
    rw [List.mem_singleton.mp ha, hno]
    exact harrivals
  placed := by
    rw [hplaced, ← h.placed]
    rfl

/-- **A message that arrives is heard**, if there is memory for it. -/
theorem handleMessage {env : Env} (halloc : env.AllocOk) (h : ep.HasHeard l) {m : Unexp}
    (hno : m.no = ep.arrivals) : (rdsHandleMessage env ep m).HasHeard (l ++ [m]) := by
  refine rdsHandleMessage_elim (fun rx _ => ?_) (fun _ t => ?_) (fun hnot => absurd halloc hnot)
    (fun hnot => absurd halloc hnot)
  · have htaken : (ep.takePosted m rx).HasHeard (l ++ [m]) := by
      refine h.arrive hno (Nat.lt_succ_self _) ?_
      have hpairings : (ep.takePosted m rx).pairings = ep.pairings ++ [(m, rx)] :=
        pairings_of_paired rfl
      rw [hpairings, List.map_append, ← Multiset.coe_add, ← add_assoc]
      rfl
    have hdeliver := Unmatched.deliver env { ep with
      arrivals := ep.arrivals + 1
      posted := Function.update ep.posted m.hdr.tagged ((ep.posted m.hdr.tagged).eraseP
        (fun rx => rdsMatches m.hdr.tagged rx m.addr m.hdr.tag)) } rx m
    exact htaken.unmatched hdeliver
  · have hqueued : (ep.queueArrival m).HasHeard (l ++ [m]) := by
      refine h.arrive hno (Nat.lt_succ_self _) ?_
      have hall : (ep.queueArrival m).allUnexp = ep.allUnexp + {m} := by
        rw [ep.allUnexp_update m.hdr.tagged rfl, ep.allUnexp_eq m.hdr.tagged, ← Multiset.coe_add,
          add_right_comm]
        rfl
      rw [hall, add_right_comm]
      rfl
    exact hqueued.of_eq le_rfl rfl rfl

/-- A receive is posted that is given an unexpected message. -/
theorem takeUnexp (h : ep.HasHeard l) {k : Bool} {m : Unexp} {r : RxEntry}
    (hfind : (ep.unexp k).find? (fun ux => rdsMatches k r ux.addr ux.hdr.tag) = some m) :
    (ep.takeUnexp k m r).HasHeard l where
  sorted := h.sorted
  old := h.old
  placed := by
    have hpairings : (ep.takeUnexp k m r).pairings = ep.pairings ++ [(m, r)] :=
      pairings_of_paired rfl
    have hall : (ep.takeUnexp k m r).allUnexp
        = ↑((ep.unexp k).eraseP (fun ux => rdsMatches k r ux.addr ux.hdr.tag))
          + ↑(ep.unexp !k) := ep.allUnexp_update k rfl
    rw [h.placed, hpairings, hall, ep.allUnexp_eq k,
      List.coe_eraseP hfind, List.map_append, ← Multiset.coe_add]
    show {m} + _ + _ + _ = _ + (_ + {m})
    abel

/-- **No other action changes what was heard.** -/
theorem act (h : ep.HasHeard l) {a : EpAct} (ha : a.isArrival = false) : (ep.act a).HasHeard l := by
  cases Ep.Moves.act ep a with
  | quiet hu => exact h.unmatched hu
  | hears src addr hheard _ =>
    cases a with
    | recv | poll => cases ha
    | _ => exact hheard.elim
  | offers k r hno hoffers =>
    cases hoffers with
    | refused _ hu => exact h.unmatched hu
    | given m hfind hu => exact (h.takeUnexp hfind).unmatched hu
    | waits _ hu =>
      have hwaits : (ep.queuePosting k r).HasHeard l := h.of_eq le_rfl rfl rfl
      exact hwaits.unmatched hu
  | cancel k context hu =>
    have hcancelled : (ep.withdraw k context).HasHeard l := h.of_eq le_rfl rfl rfl
    exact hcancelled.unmatched hu

/-- **A receive takes no message over an earlier one.** If it could have taken one that was heard
before, that was given to a receive before. -/
theorem in_order (h : ep.HasHeard l) (hinv : ep.MatchInv) {p : ℕ} {x : Unexp × RxEntry}
    (hx : ep.pairings[p]? = some x) {m : Unexp} (hm : m ∈ l)
    (hkind : m.hdr.tagged = x.1.hdr.tagged) (hno : m.no < x.1.no) (htakes : x.2.takes m = true) :
    ∃ q r, q < p ∧ ep.pairings[q]? = some (m, r) := by
  have hxmem := List.mem_of_getElem? hx
  have hplace : m ∈ ep.allUnexp + (ep.pairings.map Prod.fst : List Unexp) := by
    rw [← h.placed]
    exact hm
  obtain hunexp | hpaired := Multiset.mem_add.mp hplace
  · -- it would still be unexpected, and was passed over
    rw [ep.allUnexp_eq m.hdr.tagged] at hunexp
    have hown : m ∈ ep.unexp m.hdr.tagged := by
      obtain hown | hother := Multiset.mem_add.mp hunexp
      · exact hown
      · exact absurd (hinv.kind _ m hother) (by simp)
    rw [hkind] at hown
    rw [hinv.passed x hxmem m hown hno] at htakes
    cases htakes
  · obtain ⟨y, hy, rfl⟩ := List.mem_map.mp hpaired
    obtain ⟨q, hq⟩ := List.mem_iff_getElem?.mp hy
    obtain hlt | rfl | hgt := Nat.lt_trichotomy q p
    · exact ⟨q, y.2, hlt, hq⟩
    · rw [hx] at hq
      cases hq
      exact absurd hno (lt_irrefl _)
    · obtain ⟨hp, rfl⟩ := List.getElem?_eq_some_iff.mp hx
      obtain ⟨hlen, rfl⟩ := List.getElem?_eq_some_iff.mp hq
      rw [List.pairwise_iff_getElem.mp hinv.ordered p q hp hlen hgt hkind hno] at htakes
      cases htakes

end Ep.HasHeard

/-! ## Messages that arrive -/

/-- What entered the matching engine as a message. -/
def Unexp.Carries (u : Unexp) (m : Message) : Prop :=
  u = Unexp.ofInbound m.1 m.2 u.src u.addr u.no

/-- What has entered is the message of a call. -/
def Call.Arrives (c : Call) (u : Unexp) : Prop := ∃ m, c.Conveys m ∧ u.Carries m

/-- Two lists that match a third match each other. -/
theorem List.Forall₂.meet {α β γ : Type} {R : α → β → Prop} {S : γ → β → Prop} {l₁ : List α}
    {l₂ : List β} {l₃ : List γ} (h : List.Forall₂ R l₁ l₂) (h' : List.Forall₂ S l₃ l₂) :
    List.Forall₂ (fun a c => ∃ b, R a b ∧ S c b) l₁ l₃ := by
  induction h generalizing l₃ with
  | nil =>
    cases h'
    exact .nil
  | cons hab _ ih =>
    cases h' with
    | cons hcb h' => exact .cons ⟨_, hab, hcb⟩ (ih h')

theorem Dgram.IsControl.conveyed? {d : Dgram} (h : d.IsControl) : d.conveyed? = none := by
  have hop : ¬ (d.hdr.op = rdsOpEager ∨ d.hdr.op = rdsOpRts) := by
    obtain hop | hop | hop := h
    · rw [hop]
      decide
    · rw [hop]
      decide
    · rw [hop]
      decide
  unfold Dgram.conveyed? Carrier.message?
  dsimp only
  split
  · refine if_neg (fun hmsg => hop ?_)
    obtain ⟨-, heager | ⟨hrts, -⟩⟩ := hmsg
    · exact .inl heager
    · exact .inr hrts
  · rfl

/-- **What an action puts on the socket for an endpoint are the calls for it that it makes.** -/
theorem Ep.act_channels {ep : Ep} (hoff : ep.cfg.eagerRdma = false) (a : EpAct) :
    ∃ l, (ep.act a).wire = ep.wire ++ l ∧ (∀ d ∈ l, d.conveyed?.isSome ∨ d.IsControl)
      ∧ ∀ sa peer, List.Forall₂ Call.Conveys
        (((ep.accepted? a).toList.filter
          (fun c => rdsAvAddr ep.cfg c.req.destAddr == some sa)).filter (Call.fits ep.cfg peer))
        ((l.filter (fun d => d.dst == sa)).filterMap (Dgram.brings? peer)) := by
  cases hacc : ep.accepted? a with
  | none =>
    obtain ⟨l, hl, hctl⟩ := ep.act_quiet hoff hacc
    refine ⟨l, hl, fun d hd => .inr (hctl d hd), fun sa peer => ?_⟩
    have hnone : (l.filter (fun d => d.dst == sa)).filterMap (Dgram.brings? peer) = [] :=
      List.filterMap_eq_nil_iff.mpr (fun d hd => by
        rw [Dgram.brings?, (hctl d (List.mem_of_mem_filter hd)).conveyed?, ite_self])
    rw [hnone]
    exact .nil
  | some c =>
    obtain ⟨d, hl, hdest, hlen, m, hm, hc⟩ := ep.act_accepted hoff hacc
    refine ⟨[d], hl, fun x hx => ?_, fun sa peer => ?_⟩
    · rw [List.mem_singleton.mp hx, hm]
      exact .inl rfl
    · rw [Option.toList_some, List.filter_singleton, List.filter_singleton, hdest]
      by_cases hsa : d.dst = sa
      · rw [hsa, beq_self_eq_true, beq_self_eq_true, cond_true, cond_true, List.filter_singleton,
          Call.fits, ← hlen]
        -- the call and its datagram fit, or neither does
        by_cases hfits : d.bytes.length ≤ peer.rxBufSize
        · rw [decide_eq_true hfits, cond_true,
            List.filterMap_cons_some (b := m) (by rw [Dgram.brings?, if_pos hfits, hm])]
          exact .cons hc .nil
        · rw [decide_eq_false hfits, cond_false,
            List.filterMap_cons_none (by rw [Dgram.brings?, if_neg hfits])]
          exact .nil
      · rw [beq_eq_false_iff_ne.mpr hsa,
          beq_eq_false_iff_ne.mpr (fun heq => hsa (Option.some.inj heq))]
        exact .nil

/-- **A control datagram is no message.** -/
theorem Dgram.IsControl.unmatched {d : Dgram} (h : d.IsControl) (env : Env) (ep : Ep)
    (src : SockAddr) : ep.Unmatched (rdsRecvDgram env ep src d.bytes) := by
  refine rdsRecvDgram_elim (.refl ep) ?_
  exact rdsHandleInbound_elim (.refl ep)
    (fun p _ htype => .pendingComplete ep (by rw [htype]; decide))
    (fun _ _ => .of_outer (rdsRingHandleCtrl_outer env ep _ _ _))
    (fun hfin hring => absurd (h.resolve_left hfin) hring)

/-- **A message is heard.** -/
theorem Ep.HasHeard.recvDgram {env : Env} (halloc : env.AllocOk) {ep : Ep} {l : List Unexp}
    (h : ep.HasHeard l) {d : Dgram} {m : Message} (hm : d.conveyed? = some m) (src : SockAddr) :
    (rdsRecvDgram env ep src d.bytes).HasHeard
      (l ++ [Unexp.ofInbound m.1 m.2 src (ofiIpAvGetFiAddr ep.cfg src) ep.arrivals]) := by
  unfold Dgram.conveyed? Carrier.message? at hm
  dsimp only at hm
  split at hm
  · rename_i hlen
    unfold rdsRecvDgram
    rw [if_neg (not_lt.mpr hlen)]
    rw [rdsHandleInbound_message hm env ep src _]
    exact h.handleMessage halloc rfl
  · cases hm

/-! ## The machine -/

/-- **Endpoints without rings, and the network between them.** -/
structure Fabric (ι : Type) where
  ep : ι → Ep
  /-- How many datagrams of one to another were taken off the other's socket. -/
  drained : ι → ι → ℕ
  /-- The calls of one to send to another, as they were accepted. -/
  calls : ι → ι → List Call
  /-- The messages that have entered the matching engine of each, as they did. -/
  heard : ι → List Unexp

/-- What can happen. -/
inductive FabricAct (ι : Type) where
  /-- An endpoint acts. -/
  | own (i : ι) (a : EpAct)
  /-- The next datagram of one to another arrives. -/
  | deliver (i j : ι) (env : Env)

namespace Fabric

variable {ι : Type} [DecidableEq ι]

/-- The datagrams of one endpoint to another. -/
def dgrams (f : Fabric ι) (i j : ι) : List Dgram :=
  (f.ep i).wire.filter (fun d => d.dst == (f.ep j).cfg.self)

/-- The messages of one endpoint that have entered the matching engine of another. -/
def entered (f : Fabric ι) (i j : ι) : List Unexp :=
  (f.heard j).filter (fun u => u.src == (f.ep i).cfg.self)

/-- An endpoint acts. -/
def own (f : Fabric ι) (i : ι) (a : EpAct) : Fabric ι :=
  { f with
    ep := Function.update f.ep i ((f.ep i).act a)
    calls := Function.update f.calls i (fun j => f.calls i j
      ++ ((f.ep i).accepted? a).toList.filter (fun c =>
        rdsAvAddr (f.ep i).cfg c.req.destAddr == some (f.ep j).cfg.self)) }

/-- The calls of one to another whose datagram fits the other's buffer. -/
def fitting (f : Fabric ι) (i j : ι) : List Call :=
  (f.calls i j).filter (Call.fits (f.ep i).cfg (f.ep j).cfg)

/-- What a datagram of one to another brings into the other's matching engine. -/
def arrival (f : Fabric ι) (i j : ι) (d : Dgram) : List Unexp :=
  let src := (f.ep i).cfg.self
  (d.brings? (f.ep j).cfg).toList.map (fun m =>
    Unexp.ofInbound m.1 m.2 src (ofiIpAvGetFiAddr (f.ep j).cfg src) (f.ep j).arrivals)

/-- A datagram is taken off the socket. One that is longer than the receive buffer is truncated,
and dropped. -/
def take (f : Fabric ι) (i j : ι) (env : Env) (d : Dgram) : Fabric ι :=
  { if d.bytes.length ≤ (f.ep j).cfg.rxBufSize then f.own j (.recv env (f.ep i).cfg.self d.bytes)
    else f with
    drained := Function.update f.drained i (Function.update (f.drained i) j (f.drained i j + 1))
    heard := Function.update f.heard j (f.heard j ++ f.arrival i j d) }

/-- One action. -/
def act (f : Fabric ι) : FabricAct ι → Fabric ι
  | .own i a => f.own i a
  | .deliver i j env => (f.dgrams i j)[f.drained i j]?.elim f (f.take i j env)

/-- What is possible: an endpoint takes in only what the network brings it, and finds memory
for it. -/
def Admits (f : Fabric ι) : FabricAct ι → Prop
  | .own i a => (f.ep i).Admits a ∧ a.isArrival = false
  | .deliver i j env => f.drained i j < (f.dgrams i j).length ∧ env.AllocOk

/-- All endpoints are opened. -/
def init (cfg : ι → EpCfg) (domain : ι → Domain) : Fabric ι where
  ep i := Ep.init (cfg i) (domain i)
  drained _ _ := 0
  calls _ _ := []
  heard _ := []

/-- A run from the opening of all. -/
def Runs (cfg : ι → EpCfg) (domain : ι → Domain) (acts : List (FabricAct ι)) : Prop :=
  Along Fabric.act Fabric.Admits (init cfg domain) acts

/-- The state a run leads to. -/
def after (cfg : ι → EpCfg) (domain : ι → Domain) (acts : List (FabricAct ι)) : Fabric ι :=
  acts.foldl Fabric.act (init cfg domain)

/-- **The invariant of the channels.** -/
structure Channels (cfg : ι → EpCfg) (f : Fabric ι) : Prop where
  config : ∀ i, (f.ep i).cfg = cfg i
  /-- There is nothing on a socket but messages and control datagrams. -/
  wire : ∀ i, ∀ d ∈ (f.ep i).wire, d.conveyed?.isSome ∨ d.IsControl
  drained : ∀ i j, f.drained i j ≤ (f.dgrams i j).length
  sent : ∀ i j, List.Forall₂ Call.Conveys (f.fitting i j)
    ((f.dgrams i j).filterMap (Dgram.brings? (cfg j)))
  arrived : ∀ i j, List.Forall₂ Unexp.Carries (f.entered i j)
    (((f.dgrams i j).take (f.drained i j)).filterMap (Dgram.brings? (cfg j)))
  /-- What was heard was heard from one of the endpoints. -/
  known : ∀ j, ∀ u ∈ f.heard j, ∃ i, u.src = (cfg i).self

section Channels

variable {cfg : ι → EpCfg} {f : Fabric ι}

theorem ep_own_of_ne (f : Fabric ι) {i j : ι} (a : EpAct) (hj : j ≠ i) :
    (f.own i a).ep j = f.ep j := Function.update_of_ne hj _ _

theorem ep_own_self (f : Fabric ι) (i : ι) (a : EpAct) : (f.own i a).ep i = (f.ep i).act a :=
  Function.update_self _ _ _

theorem cfg_own (f : Fabric ι) (i : ι) (a : EpAct) (j : ι) :
    ((f.own i a).ep j).cfg = (f.ep j).cfg := by
  by_cases hj : j = i
  · rw [hj, ep_own_self]
    exact (Ep.MatchStep.act (f.ep i) a).cfg
  · rw [ep_own_of_ne f a hj]

/-- An action adds to the datagrams of the endpoint that acts. -/
theorem dgrams_own (f : Fabric ι) {i : ι} {a : EpAct} {l : List Dgram}
    (hl : ((f.ep i).act a).wire = (f.ep i).wire ++ l) (k j : ι) :
    (f.own i a).dgrams k j = f.dgrams k j
      ++ if k = i then l.filter (fun d => d.dst == (f.ep j).cfg.self) else [] := by
  unfold dgrams
  rw [cfg_own]
  by_cases hk : k = i
  · rw [hk, ep_own_self, hl, List.filter_append, if_pos rfl]
  · rw [ep_own_of_ne f a hk, if_neg hk, List.append_nil]

/-- **Any action keeps the channels in order.** -/
theorem Channels.own (h : f.Channels cfg) {i : ι} (hoff : (cfg i).eagerRdma = false) (a : EpAct) :
    (f.own i a).Channels cfg := by
  obtain ⟨l, hl, hkinds, hcalls⟩ := (f.ep i).act_channels (by rw [h.config]; exact hoff) a
  refine ⟨fun j => ?_, fun k => ?_, fun k j => ?_, fun k j => ?_, fun k j => ?_, h.known⟩
  · rw [cfg_own, h.config]
  · by_cases hk : k = i
    · rw [hk, ep_own_self, hl]
      exact List.forall_mem_append.mpr ⟨h.wire i, hkinds⟩
    · rw [ep_own_of_ne f a hk]
      exact h.wire k
  · rw [dgrams_own f hl, List.length_append]
    exact Nat.le_add_right_of_le (h.drained k j)
  · rw [dgrams_own f hl, List.filterMap_append]
    unfold fitting
    rw [cfg_own, cfg_own]
    by_cases hk : k = i
    · have hmade : (f.own i a).calls k j = f.calls i j ++ ((f.ep i).accepted? a).toList.filter
          (fun c => rdsAvAddr (f.ep i).cfg c.req.destAddr == some (f.ep j).cfg.self) := by
        rw [hk]
        exact congrFun (Function.update_self i _ f.calls) j
      have hnew := hcalls (f.ep j).cfg.self (f.ep j).cfg
      rw [h.config j] at hnew ⊢
      rw [hmade, hk, if_pos rfl, List.filter_append, h.config j]
      exact List.rel_append (h.config j ▸ h.sent i j) hnew
    · have hsame : (f.own i a).calls k j = f.calls k j :=
        congrFun (Function.update_of_ne hk _ f.calls) j
      rw [hsame, if_neg hk, List.filterMap_nil, List.append_nil]
      exact h.sent k j
  · have hentered : (f.own i a).entered k j = f.entered k j := by
      unfold entered
      rw [cfg_own]
      rfl
    have hdrained : (f.own i a).drained k j = f.drained k j := rfl
    rw [hentered, hdrained, dgrams_own f hl, List.take_append_of_le_length (h.drained k j)]
    exact h.arrived k j

omit [DecidableEq ι] in
theorem src_of_mem_arrival {i j : ι} {d : Dgram} {u : Unexp} (hu : u ∈ f.arrival i j d) :
    u.src = (f.ep i).cfg.self := by
  obtain ⟨m, -, rfl⟩ := List.mem_map.mp hu
  rfl

omit [DecidableEq ι] in
theorem carries_arrival (f : Fabric ι) (i j : ι) (d : Dgram) :
    List.Forall₂ Unexp.Carries (f.arrival i j d) (d.brings? (f.ep j).cfg).toList :=
  List.forall₂_map_left_iff.mpr (List.forall₂_same.mpr (fun _ _ => rfl))

/-- A delivery adds to what the endpoint has heard that it reaches. -/
theorem heard_take (f : Fabric ι) (i j : ι) (env : Env) (d : Dgram) (k : ι) :
    (f.take i j env d).heard k = f.heard k ++ if k = j then f.arrival i j d else [] := by
  by_cases hk : k = j
  · rw [if_pos hk, hk]
    exact Function.update_self j _ f.heard
  · rw [if_neg hk, List.append_nil]
    exact Function.update_of_ne hk _ f.heard

theorem drained_take (f : Fabric ι) (i j : ι) (env : Env) (d : Dgram) (k m : ι) :
    (f.take i j env d).drained k m = f.drained k m + if k = i ∧ m = j then 1 else 0 := by
  show Function.update f.drained i (Function.update (f.drained i) j (f.drained i j + 1)) k m = _
  by_cases hk : k = i
  · subst hk
    rw [Function.update_self]
    by_cases hm : m = j
    · rw [hm, Function.update_self, if_pos ⟨rfl, rfl⟩]
    · rw [Function.update_of_ne hm, if_neg (fun hkm => hm hkm.2), Nat.add_zero]
  · rw [Function.update_of_ne hk, if_neg (fun hkm => hk hkm.1), Nat.add_zero]

theorem cfg_take (f : Fabric ι) (i j : ι) (env : Env) (d : Dgram) (k : ι) :
    ((f.take i j env d).ep k).cfg = (f.ep k).cfg := by
  unfold take
  dsimp only
  split
  · exact cfg_own f j _ k
  · rfl

/-- What has entered, when a datagram was taken off the socket. -/
theorem entered_take (hself : Function.Injective (fun i => (f.ep i).cfg.self)) (i j : ι) (env : Env)
    (d : Dgram) (k m : ι) :
    (f.take i j env d).entered k m
      = f.entered k m ++ if k = i ∧ m = j then f.arrival i j d else [] := by
  unfold entered
  rw [cfg_take, heard_take, List.filter_append]
  congr 1
  by_cases hm : m = j
  · rw [if_pos hm]
    by_cases hk : k = i
    · rw [if_pos ⟨hk, hm⟩, hk]
      exact List.filter_eq_self.mpr (fun u hu => beq_iff_eq.mpr (src_of_mem_arrival hu))
    · rw [if_neg (fun hkm => hk hkm.1)]
      refine List.filter_eq_nil_iff.mpr (fun u hu heq => hk (hself ?_))
      exact (beq_iff_eq.mp heq).symm.trans (src_of_mem_arrival hu)
  · rw [if_neg hm, if_neg (fun hkm => hm hkm.2)]
    rfl

/-- **A delivery keeps the channels in order.** -/
theorem Channels.take (h : f.Channels cfg) (hself : Function.Injective (fun i => (cfg i).self))
    (hoff : ∀ i, (cfg i).eagerRdma = false) {i j : ι} {d : Dgram}
    (hd : (f.dgrams i j)[f.drained i j]? = some d) (env : Env) :
    (f.take i j env d).Channels cfg := by
  have hself : Function.Injective (fun i => (f.ep i).cfg.self) := by
    simpa only [h.config] using hself
  obtain ⟨l, hl, -⟩ := (f.ep j).act_channels (by rw [h.config]; exact hoff j)
    (.recv env (f.ep i).cfg.self d.bytes)
  -- the endpoints are as the datagram leaves them, or as they were; the datagrams that there
  -- were are still the first ones
  have hown : Channels cfg (if d.bytes.length ≤ (f.ep j).cfg.rxBufSize then
      f.own j (.recv env (f.ep i).cfg.self d.bytes) else f) := by
    split
    · exact h.own (hoff j) _
    · exact h
  have hfirst (k m : ι) : ∃ l, (f.take i j env d).dgrams k m = f.dgrams k m ++ l := by
    unfold Fabric.take dgrams
    dsimp only
    split
    · exact ⟨_, dgrams_own f hl k m⟩
    · exact ⟨[], (List.append_nil _).symm⟩
  have hlt : f.drained i j < (f.dgrams i j).length := (List.getElem?_eq_some_iff.mp hd).1
  refine ⟨hown.config, hown.wire, fun k m => ?_, hown.sent, fun k m => ?_, fun m u hu => ?_⟩
  · obtain ⟨l, hl⟩ := hfirst k m
    rw [drained_take, hl, List.length_append]
    have hle := h.drained k m
    split
    · rename_i hkm
      rw [hkm.1, hkm.2]
      omega
    · omega
  · obtain ⟨l, hl⟩ := hfirst k m
    rw [entered_take hself, drained_take, hl]
    by_cases hkm : k = i ∧ m = j
    · obtain ⟨rfl, rfl⟩ := hkm
      rw [if_pos ⟨rfl, rfl⟩, if_pos ⟨rfl, rfl⟩, List.take_append_of_le_length hlt,
        List.take_add_one, hd, List.filterMap_append]
      have hone := f.carries_arrival k m d
      rw [h.config] at hone
      rw [Option.toList_some, filterMap_singleton]
      exact List.rel_append (h.arrived k m) hone
    · rw [if_neg hkm, if_neg hkm, List.append_nil, Nat.add_zero,
        List.take_append_of_le_length (h.drained k m)]
      exact h.arrived k m
  · rw [heard_take] at hu
    obtain hu | hu := List.mem_append.mp hu
    · exact h.known m u hu
    · split at hu
      · refine ⟨i, ?_⟩
        rw [src_of_mem_arrival hu, h.config]
      · cases hu

end Channels

/-! ## Whole runs -/

/-- **The invariant.** -/
structure Inv (cfg : ι → EpCfg) (f : Fabric ι) : Prop where
  channels : f.Channels cfg
  heard : ∀ j, (f.ep j).HasHeard (f.heard j)
  matching : ∀ j, (f.ep j).MatchInv

namespace Inv

variable {cfg : ι → EpCfg} {f : Fabric ι}

omit [DecidableEq ι] in
theorem init (cfg : ι → EpCfg) (domain : ι → Domain) : (Fabric.init cfg domain).Inv cfg where
  channels := ⟨fun _ => rfl, fun _ _ hd => (List.not_mem_nil hd).elim, fun _ _ => le_rfl,
    fun _ _ => .nil, fun _ _ => .nil, fun _ _ hu => (List.not_mem_nil hu).elim⟩
  heard j := .init (cfg j) (domain j)
  matching j := .init (cfg j) (domain j)

/-- Matching is kept by any action. -/
theorem matching_own (h : f.Inv cfg) (i : ι) (a : EpAct) (j : ι) :
    ((f.own i a).ep j).MatchInv := by
  by_cases hj : j = i
  · rw [hj, ep_own_self]
    exact (h.matching i).step (.act _ a)
  · rw [ep_own_of_ne f a hj]
    exact h.matching j

theorem own (h : f.Inv cfg) (hoff : ∀ i, (cfg i).eagerRdma = false) {i : ι} {a : EpAct}
    (ha : a.isArrival = false) : (f.own i a).Inv cfg where
  channels := h.channels.own (hoff i) a
  heard j := by
    show ((f.own i a).ep j).HasHeard (f.heard j)
    by_cases hj : j = i
    · rw [hj, ep_own_self]
      exact (h.heard i).act ha
    · rw [ep_own_of_ne f a hj]
      exact h.heard j
  matching := h.matching_own i a

theorem take (h : f.Inv cfg) (hself : Function.Injective (fun i => (cfg i).self))
    (hoff : ∀ i, (cfg i).eagerRdma = false) {i j : ι} {d : Dgram}
    (hd : (f.dgrams i j)[f.drained i j]? = some d) {env : Env} (halloc : env.AllocOk) :
    (f.take i j env d).Inv cfg where
  channels := h.channels.take hself hoff hd env
  heard k := by
    have hothers (hk : k ≠ j) : (f.take i j env d).ep k = f.ep k := by
      unfold Fabric.take
      dsimp only
      split
      · exact ep_own_of_ne f _ hk
      · rfl
    rw [heard_take]
    by_cases hk : k = j
    · subst hk
      rw [if_pos rfl]
      unfold Fabric.take arrival Dgram.brings?
      by_cases hfits : d.bytes.length ≤ (f.ep k).cfg.rxBufSize
      · rw [if_pos hfits, if_pos hfits]
        show ((f.own k _).ep k).HasHeard _
        rw [ep_own_self]
        have hmem : d ∈ (f.ep i).wire := List.mem_of_mem_filter (List.mem_of_getElem? hd)
        obtain hmsg | hctl := h.channels.wire i d hmem
        · obtain ⟨m, hm⟩ := Option.isSome_iff_exists.mp hmsg
          rw [hm]
          exact (h.heard k).recvDgram halloc hm _
        · rw [hctl.conveyed?]
          show (rdsRecvDgram env (f.ep k) (f.ep i).cfg.self d.bytes).HasHeard (f.heard k ++ [])
          rw [List.append_nil]
          exact (h.heard k).unmatched (hctl.unmatched env _ _)
      · rw [if_neg hfits, if_neg hfits]
        show (f.ep k).HasHeard (f.heard k ++ [])
        rw [List.append_nil]
        exact h.heard k
    · rw [if_neg hk, List.append_nil, hothers hk]
      exact h.heard k
  matching k := by
    unfold Fabric.take
    dsimp only
    split
    · exact h.matching_own j _ k
    · exact h.matching k

theorem act (h : f.Inv cfg) (hself : Function.Injective (fun i => (cfg i).self))
    (hoff : ∀ i, (cfg i).eagerRdma = false) {a : FabricAct ι} (ha : f.Admits a) :
    (f.act a).Inv cfg := by
  cases a with
  | own i a => exact h.own hoff ha.2
  | deliver i j env =>
    obtain ⟨d, hd⟩ : ∃ d, (f.dgrams i j)[f.drained i j]? = some d :=
      ⟨_, List.getElem?_eq_getElem ha.1⟩
    show ((f.dgrams i j)[f.drained i j]?.elim f (f.take i j env)).Inv cfg
    rw [hd]
    exact h.take hself hoff hd ha.2

end Inv

/-- **What an endpoint receives of another**, compared with what the other was asked to send. -/
structure InCallOrder (f : Fabric ι) (i j : ι) : Prop where
  /-- What has entered are the first of the calls that fit, in order, each with what it sent. -/
  le : (f.entered i j).length ≤ (f.fitting i j).length
  arrives : List.Forall₂ Call.Arrives ((f.fitting i j).take (f.entered i j).length) (f.entered i j)
  /-- Once the network has nothing left, that is all of them. -/
  all : f.drained i j = (f.dgrams i j).length → (f.entered i j).length = (f.fitting i j).length
  /-- Nothing is given to a receive that was not sent, and nothing twice. -/
  known : ∀ x ∈ (f.ep j).pairings, ∃ k, x.1 ∈ f.entered k j
  once : ((f.ep j).pairings.map Prod.fst).Nodup
  /-- A receive is given a message only after all earlier ones of its sender that it would take. -/
  in_order : ∀ (p : ℕ) (x : Unexp × RxEntry) (n : ℕ) (m : Unexp),
    (f.ep j).pairings[p]? = some x → (f.entered i j)[n]? = some x.1 → m ∈ (f.entered i j).take n →
      m.hdr.tagged = x.1.hdr.tagged → x.2.takes m = true →
        ∃ q r, q < p ∧ (f.ep j).pairings[q]? = some (m, r)

omit [DecidableEq ι] in
theorem Inv.inCallOrder {cfg : ι → EpCfg} {f : Fabric ι} (h : f.Inv cfg) (i j : ι) :
    f.InCallOrder i j := by
  obtain ⟨hchannels, hheard, hmatching⟩ := h
  have hlen := (hchannels.arrived i j).length_eq
  have hsent := (hchannels.sent i j).length_eq
  -- the messages taken off the socket are the first of those put on it
  have hfirst : ((f.dgrams i j).take (f.drained i j)).filterMap (Dgram.brings? (cfg j))
      = ((f.dgrams i j).filterMap (Dgram.brings? (cfg j))).take (f.entered i j).length := by
    rw [hlen]
    exact List.prefix_iff_eq_take.mp ((List.take_prefix _ _).filterMap _)
  have hsorted : (f.entered i j).Pairwise (fun m m' => m.no < m'.no) :=
    (hheard j).sorted.sublist List.filter_sublist
  refine ⟨?_, ?_, fun hall => ?_, fun x hx => ?_, ?_, fun p x n m hx hn hm hkind htakes => ?_⟩
  · have hle := congrArg List.length hfirst
    rw [List.length_take, ← hlen, ← hsent] at hle
    omega
  · have harrived := hchannels.arrived i j
    rw [hfirst] at harrived
    exact (List.forall₂_take _ (hchannels.sent i j)).meet harrived
  · rw [hlen, hall, List.take_length, ← hsent]
  · have hmem : x.1 ∈ f.heard j := by
      rw [← Multiset.mem_coe, (hheard j).placed]
      exact Multiset.mem_add.mpr (.inr (List.mem_map_of_mem hx))
    obtain ⟨k, hk⟩ := hchannels.known j x.1 hmem
    refine ⟨k, List.mem_filter.mpr ⟨hmem, beq_iff_eq.mpr ?_⟩⟩
    rw [hk, hchannels.config]
  · have hnodup : (f.heard j : Multiset Unexp).Nodup :=
      (hheard j).sorted.imp (fun hlt heq => absurd hlt (by rw [heq]; exact lt_irrefl _))
    rw [(hheard j).placed] at hnodup
    exact (Multiset.nodup_add.mp hnodup).2.1
  · obtain ⟨k, hk, rfl⟩ := List.mem_take_iff_getElem.mp hm
    obtain ⟨hlt, hxn⟩ := List.getElem?_eq_some_iff.mp hn
    have hno := List.pairwise_iff_getElem.mp hsorted k n (by omega) hlt (by omega)
    rw [hxn] at hno
    exact (hheard j).in_order (hmatching j) hx
      (List.mem_of_mem_filter (List.mem_of_mem_take hm)) hkind hno htakes

/-- **Messages are received in the order of the calls.** Any number of endpoints without rings do
anything at all, over a network that keeps the order of the datagrams between any two. The calls
whose datagram is longer than the receiver's buffer are the only ones that are not received. -/
theorem received_in_call_order (cfg : ι → EpCfg)
    (hself : Function.Injective (fun i => (cfg i).self)) (hoff : ∀ i, (cfg i).eagerRdma = false)
    (domain : ι → Domain) (acts : List (FabricAct ι)) (hrun : Runs cfg domain acts) (i j : ι) :
    (after cfg domain acts).InCallOrder i j :=
  (Along.invariant (fun _ _ hinv ha => hinv.act hself hoff ha) (Inv.init cfg domain)
    hrun).inCallOrder i j

/-- Two messages are injected, both arrive, and a receive is posted. -/
def twoInjections : List (FabricAct (Fin 2)) :=
  let env := Env.calm numberCookies
  [.own 0 (.inject env 4096 8 1 5 true), .own 0 (.inject env 4104 8 1 5 true),
    .deliver 0 1 env, .deliver 0 1 env, .own 1 (.postRecv env [⟨8192, 8⟩] 0 5 0 7 0 true)]

/-- It takes the first. -/
theorem twoInjections_in_order :
    let f := after twoCfgs twoDomains twoInjections
    Runs twoCfgs twoDomains twoInjections ∧ (f.entered 0 1).length = 2
      ∧ (f.ep 1).pairings.map (fun x => x.1.no) = [0] ∧ f.InCallOrder 0 1 := by
  intro f
  have hrun : Runs twoCfgs twoDomains twoInjections :=
    ⟨⟨trivial, rfl⟩, ⟨trivial, rfl⟩, ⟨by decide +kernel, Duplex.calm_allocOk⟩,
      ⟨by decide +kernel, Duplex.calm_allocOk⟩, ⟨trivial, rfl⟩, trivial⟩
  exact ⟨hrun, by decide +kernel, by decide +kernel,
    received_in_call_order twoCfgs (by decide) (by decide) twoDomains twoInjections hrun 0 1⟩

end Fabric
