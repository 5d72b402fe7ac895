import RdsProv.DatagramSize
import RdsProv.OneChannel
import RdsProv.RingQueue

/-!
# Messages between two endpoints keep their order

`FI_ORDER_SAS` asks that messages enter the receiver's matching engine in the order in which
they were accepted. There are two channels between two endpoints, the socket and the ring, and
the receiver looks at them when it likes; each keeps its order, so the order is kept if all
messages take one of the two.

`Duplex` is a link whose endpoints also take datagrams of each other off their sockets, in
order, and drop those that are longer than their buffer. It keeps two lists for either
direction: the messages that were accepted, and those that have entered the other's matching
engine. In every run in which no message is injected that is too long for a slot, one of the two
channels is unused, and what has entered is in the order of what was accepted; nothing is missing
if no message was dropped (`Duplex.one_channel_in_order`). A long injection breaks the order
(`Duplex.injection_overtakes`).
-/

/-! ## Messages -/

/-- A message as `rds_handle_message` is given it, and with it the matching engine. -/
abbrev Message := Hdr × List UInt8

/-- The message a header and its payload are. -/
def Hdr.message? (hdr : Hdr) (payload : List UInt8) : Option Message :=
  if hdr.magic = rdsHdrMagic ∧ (hdr.op = rdsOpEager
      ∨ (hdr.op = rdsOpRts ∧ hdr.segCnt.toNat * rdsSegSize ≤ payload.length)) then
    some (hdr, payload)
  else none

/-- The message a datagram carries, if it belongs on the ring. -/
def Dgram.message? (g : RingGeom) (d : Dgram) : Option Message :=
  if d.ringable g = true ∧ rdsHdrSize ≤ d.bytes.length then
    d.hdr.message? (d.bytes.drop rdsHdrSize)
  else none

/-- The message a slot carries. -/
def RingSlot.message? (slot : RingSlot) : Option Message :=
  let payload := slot.payload.take slot.len.toNat
  if slot.op = rdsOpEager then
    Hdr.message? { Hdr.blank rdsOpEager with
      flags := slot.flags
      tag := slot.tag
      data := slot.data
      size := slot.len.toUInt64 } payload
  else if slot.len.toNat < rdsHdrSize then none
  else (Hdr.decode payload).message? (payload.drop rdsHdrSize)

/-- **A message enters the matching engine.** -/
theorem rdsHandleInbound_message {hdr : Hdr} {payload : List UInt8} {m : Message}
    (h : hdr.message? payload = some m) (env : Env) (ep : Ep) (src : SockAddr) (srcFi : UInt64) :
    rdsHandleInbound env ep hdr payload src srcFi
      = rdsHandleMessage env ep (Unexp.ofInbound m.1 m.2 src srcFi ep.arrivals) := by
  unfold Hdr.message? at h
  split at h
  · rename_i hmsg
    obtain ⟨hmagic, hop⟩ := hmsg
    cases h
    exact rdsHandleInbound_of_message hmagic hop env ep src srcFi
  · cases h

theorem rdsRingDeliver_message {slot : RingSlot} {m : Message} (h : slot.message? = some m)
    (env : Env) (ep : Ep) (sa : SockAddr) (addr : UInt64) :
    rdsRingDeliver env ep sa addr slot
      = rdsHandleMessage env ep (Unexp.ofInbound m.1 m.2 sa addr ep.arrivals) := by
  unfold RingSlot.message? at h
  unfold rdsRingDeliver
  dsimp only at h ⊢
  split
  · rename_i hop
    rw [if_pos hop] at h
    exact rdsHandleInbound_message h env ep sa addr
  · rename_i hop
    rw [if_neg hop] at h
    split
    · rename_i hlen
      rw [if_pos hlen] at h
      cases h
    · rename_i hlen
      rw [if_neg hlen] at h
      exact rdsHandleInbound_message h env ep sa addr

/-! ## The machine -/

/-- **Two endpoints, their rings and their sockets.** -/
structure Duplex where
  link : Link
  /-- How many datagrams of each to the other were taken off the other's socket. -/
  drained : Bool → ℕ
  /-- The messages of each to the other, as they were accepted. -/
  sent : Bool → List Message
  /-- The messages of each that entered the other's matching engine, as they did. -/
  entered : Bool → List Message

/-- What can happen. -/
inductive DuplexAct where
  /-- An endpoint acts. -/
  | own (s : Bool) (x : EpAct)
  /-- The network does something with the writes that are posted. -/
  | net (a : LinkAct)
  /-- An endpoint takes the next datagram of the other off its socket. -/
  | drain (s : Bool) (env : Env)

/-- The message of a datagram that the other endpoint does not drop. -/
def LinkCfg.heard? (c : LinkCfg) (s : Bool) (g : Dgram) : Option Message :=
  if g.bytes.length ≤ (c.cfg !s).rxBufSize then g.message? (c.geom s) else none

/-- The datagrams of an endpoint to the other. -/
def Link.dgrams (c : LinkCfg) (l : Link) (s : Bool) : List Dgram :=
  (l.ep s).wire.filter (fun d => d.dst == c.far s)

namespace Duplex

variable (c : LinkCfg)

/-- An endpoint acts. What it puts on the channels was accepted; what it takes out of the ring
enters. -/
def own (d : Duplex) (s : Bool) (x : EpAct) : Duplex :=
  let l := d.link.act c (.own s x)
  { d with
    link := l
    sent := Function.update d.sent s (d.sent s
      ++ ((l.side c s).accepted.drop (d.link.side c s).accepted.length).filterMap
        RingSlot.message?
      ++ ((l.dgrams c s).drop (d.link.dgrams c s).length).filterMap (Dgram.message? (c.geom s)))
    entered := Function.update d.entered (!s) (d.entered (!s)
      ++ (d.link.takes c s x).filterMap RingSlot.message?) }

/-- An endpoint handles a datagram of the other. -/
def hear (d : Duplex) (s : Bool) (env : Env) (g : Dgram) : Duplex :=
  let d' := d.own c s (.recv env (c.far s) g.bytes)
  { d' with
    entered := Function.update d'.entered (!s) (d'.entered (!s)
      ++ (g.message? (c.geom !s)).toList) }

/-- One action. A datagram that is longer than the receive buffer is truncated, and dropped. -/
def act (d : Duplex) : DuplexAct → Duplex
  | .own s x => d.own c s x
  | .net a => { d with link := d.link.act c a }
  | .drain s env => match (d.link.dgrams c !s)[d.drained !s]? with
    | none => d
    | some g =>
      { if g.bytes.length ≤ (c.cfg s).rxBufSize then d.hear c s env g else d with
        drained := Function.update d.drained (!s) (d.drained (!s) + 1) }

/-- What is possible: allocations succeed, the datagrams of the other are taken off the socket
in order, and the messages to it are sent to one address. -/
def Admits (dest : Bool → UInt64) (d : Duplex) : DuplexAct → Prop
  | .own s x => d.link.Admits c (.own s x) ∧ (∀ env, x.env? = some env → env.AllocOk)
      ∧ (∀ env bytes, x ≠ .recv env (c.far s) bytes)
      ∧ ∀ a, x.dest? = some a → rdsAvAddr (c.cfg s) a = some (c.far s) → a = dest s
  | .net a => d.link.Admits c a ∧ ∀ s x, a ≠ .own s x
  | .drain s env => d.drained (!s) < (d.link.dgrams c !s).length ∧ env.AllocOk

/-- What the order needs of an action. -/
def Orderly (dest : Bool → UInt64) : DuplexAct → Prop
  | .own s x => x.dest? = some (dest s) → x.Orderly (c.cfg s)
  | _ => True

/-- Both endpoints are opened. -/
def init (domain : Bool → Domain) : Duplex where
  link := Link.init c domain
  drained _ := 0
  sent _ := []
  entered _ := []

/-- A run from the opening of both. -/
def Runs (dest : Bool → UInt64) (domain : Bool → Domain) (acts : List DuplexAct) : Prop :=
  Along (Duplex.act c) (Duplex.Admits c dest) (init c domain) acts

/-- The state a run leads to. -/
def after (domain : Bool → Domain) (acts : List DuplexAct) : Duplex :=
  acts.foldl (Duplex.act c) (init c domain)

end Duplex

/-! ## What is heard -/

namespace Link

variable {c : LinkCfg} {l : Link} {s : Bool}

/-- A slot that was accepted was posted. -/
theorem exists_of_mem_accepted {slot : RingSlot} (h : slot ∈ (l.side c s).accepted) :
    ∃ w ∈ (l.ep s).writes, ∃ idx, w.loc = .stage idx slot := by
  obtain ⟨v, hv, rfl⟩ := List.mem_map.mp h
  obtain ⟨w, hw, hslot⟩ := List.mem_filterMap.mp hv
  refine ⟨w, hw, v.idx, ?_⟩
  unfold RdmaOp.slotTo at hslot
  split at hslot
  · rename_i hloc
    split at hslot
    · cases hslot
      exact hloc
    · cases hslot
  · cases hslot

/-- **An endpoint hears of the other's own geometry**, if what it takes off the socket for the
other's was sent by it. -/
theorem Inv.hears (h : l.Inv c) (hplain : (l.ep !s).ringBook.Plain (c.cfg !s)) {x : EpAct}
    (hrecv : ∀ env bytes, x = .recv env (c.far s) bytes →
      ∃ g ∈ l.dgrams c !s, g.bytes = bytes) {op : UInt8} {i : RingInfo}
    (hin : ((l.ep s).ringInputDue x).hears (c.addr s) op i) :
    i.slots = (c.geom !s).slots ∧ i.slotSize = (c.geom !s).slotSize := by
  cases x with
  | recv env src bytes =>
    obtain ⟨hctrl, hidx, hknown⟩ := hin
    rw [h.config] at hidx
    have hsrc := LinkCfg.eq_far (rdsAvAddr_of_get (c.fits s).le hidx hknown)
    subst hsrc
    obtain ⟨g, hg, rfl⟩ := hrecv env bytes rfl
    have hctrl : g.ctrl? = some (op, i) := hctrl
    have hmem : (g.dst, op, i) ∈ (l.ep !s).ringBook.ctrl :=
      List.mem_filterMap.mpr ⟨g, List.mem_of_mem_filter hg, by rw [hctrl]; rfl⟩
    exact hplain.ctrl _ hmem
  | poll env addr =>
    -- a slot of the other carries no handshake
    obtain ⟨rfl, p, slot, hp, hnext, hctrl⟩ := hin
    have hpeer : (l.side c s).peer = p := by
      show (rdsPeerFind (l.ep s) (c.addr s)).getD _ = p
      rw [hp]
      rfl
    rw [h.config] at hnext
    obtain ⟨hab, hba⟩ := h.linked s
    have hslot := ((hab.nextSlot_iff hba slot).mp (by rw [hpeer]; exact hnext)).2
    obtain ⟨w, hw, idx, hloc⟩ := exists_of_mem_accepted (List.mem_of_getElem? hslot)
    rw [hplain.writes w hw idx slot hloc] at hctrl
    cases hctrl
  | _ => exact hin.elim

/-- An endpoint acts. -/
theorem Inv.own_plain (h : l.Inv c) (hplain : ∀ t, (l.ep t).ringBook.Plain (c.cfg t)) {x : EpAct}
    (hadmits : l.Admits c (.own s x)) (hrecv : ∀ env bytes, x = .recv env (c.far s) bytes →
      ∃ g ∈ l.dgrams c !s, g.bytes = bytes) :
    (l.act c (.own s x)).Inv c
      ∧ ∀ t, ((l.act c (.own s x)).ep t).ringBook.Plain (c.cfg t) := by
  refine ⟨h.act hadmits (fun t y hy op i hin _ _ => ?_), fun t => ?_⟩
  · cases hy
    exact h.hears (hplain _) hrecv hin
  · by_cases ht : t = s
    · have hrules := ((l.ep s).act_ring_due x).2
      rw [h.config] at hrules
      rw [ht, ep_own]
      exact (hplain s).rules hrules
    · have hsame : (l.act c (.own s x)).ep t = l.ep t := Function.update_of_ne ht _ _
      rw [hsame]
      exact hplain t

/-- The network leaves the channels and what was taken alone; at most something lands. -/
theorem act_net (l : Link) {a : LinkAct} (ha : ∀ s x, a ≠ .own s x) :
    (l.act c a).taken = l.taken ∧ ∀ t, (l.act c a).ep t = l.ep t ∨ ∃ x : EpAct,
      (l.act c a).ep t = (l.ep t).act x
        ∧ (∀ addr op i, ¬ ((l.ep t).ringInputDue x).hears addr op i)
        ∧ ((l.ep t).act x).wire = (l.ep t).wire ∧ ((l.ep t).act x).writes = (l.ep t).writes := by
  have hlands {u : Bool} {x : EpAct}
      (hhears : ∀ addr op i, ¬ ((l.ep u).ringInputDue x).hears addr op i)
      (hwire : ((l.ep u).act x).wire = (l.ep u).wire)
      (hwrites : ((l.ep u).act x).writes = (l.ep u).writes) (t : Bool) :
      Function.update l.ep u ((l.ep u).act x) t = l.ep t ∨ ∃ y : EpAct,
        Function.update l.ep u ((l.ep u).act x) t = (l.ep t).act y
          ∧ (∀ addr op i, ¬ ((l.ep t).ringInputDue y).hears addr op i)
          ∧ ((l.ep t).act y).wire = (l.ep t).wire
          ∧ ((l.ep t).act y).writes = (l.ep t).writes := by
    by_cases ht : t = u
    · subst ht
      exact .inr ⟨x, Function.update_self _ _ _, hhears, hwire, hwrites⟩
    · exact .inl (Function.update_of_ne ht _ _)
  cases a with
  | own s x => exact absurd rfl (ha s x)
  | fetch s n =>
    unfold act
    dsimp only
    split
    · exact ⟨rfl, fun _ => .inl rfl⟩
    · exact ⟨rfl, fun _ => .inl rfl⟩
  | land s =>
    unfold act
    dsimp only
    split
    · exact ⟨rfl, hlands (fun _ _ _ => id) rfl rfl⟩
    · exact ⟨rfl, fun _ => .inl rfl⟩
  | fetchCredit s n => exact ⟨rfl, fun _ => .inl rfl⟩
  | landCredit s n =>
    unfold act
    dsimp only
    split
    · exact ⟨rfl, hlands (fun _ _ _ => id) rfl rfl⟩
    · exact ⟨rfl, fun _ => .inl rfl⟩

/-- What an endpoint puts on the channels to the other. -/
theorem Inv.own_channels {x : EpAct} (h : l.Inv c) {dest : UInt64}
    (hkeeps : c.Keeps s ((l.ep s).act x).ringBook) (hon : (c.cfg s).eagerRdma = true)
    (halloc : ∀ env, x.env? = some env → env.AllocOk)
    (hdest : ∀ a, x.dest? = some a → rdsAvAddr (c.cfg s) a = some (c.far s) → a = dest)
    (horder : x.dest? = some dest → x.Orderly (c.cfg s)) :
    ∃ ds ws, (l.act c (.own s x)).dgrams c s = l.dgrams c s ++ ds
      ∧ ((l.act c (.own s x)).side c s).posted = (l.side c s).posted ++ ws
      ∧ ((∃ g ∈ ds, g.ringable (c.geom s) = true) → ((l.ep s).act x).Ringless dest)
      ∧ (ws ≠ [] → ((l.ep s).act x).ReadyFor dest (c.far s)) := by
  have hcfg := h.config s
  have hwire : ∃ ds, ((l.ep s).act x).wire = (l.ep s).wire ++ ds
      ∧ ∀ g ∈ ds, g.dst = c.far s → g.ringable (c.geom s) = true →
        ((l.ep s).act x).Ringless dest := by
    cases hx : x.dest? with
    | none =>
      obtain ⟨ds, hds, hmsg⟩ := ((l.ep s).act_unsent hx).wire
      refine ⟨ds, hds, fun g hg _ hring => ?_⟩
      rw [Dgram.ringable, hmsg g hg] at hring
      cases hring
    | some a =>
      obtain ⟨⟨ds, hds, hspill⟩, -⟩ := Ep.act_sends hx (by rw [hcfg]; exact hon) halloc
      refine ⟨ds, hds, fun g hg hdst hring => ?_⟩
      rw [hcfg] at hspill
      obtain ⟨hav, hless⟩ := hspill g hg hring
      obtain rfl := hdest a hx (by rw [hav, hdst])
      exact hless (horder hx)
  have hwrites : ∃ ws, ((l.ep s).act x).writes = (l.ep s).writes ++ ws
      ∧ ∀ w ∈ ws, w.slotTo (c.far s) ≠ none → ((l.ep s).act x).ReadyFor dest (c.far s) := by
    cases hx : x.dest? with
    | none =>
      obtain ⟨ws, hws, hslot⟩ := ((l.ep s).act_unsent hx).writes
      exact ⟨ws, hws, fun w hw hsome => absurd (hslot w hw _) hsome⟩
    | some a =>
      obtain ⟨-, ws, hws, hposts⟩ := Ep.act_sends hx (by rw [hcfg]; exact hon) halloc
      refine ⟨ws, hws, fun w hw hsome => ?_⟩
      have hready := hposts w hw
      have hdst : w.dst = c.far s := by
        unfold RdmaOp.slotTo at hsome
        split at hsome
        · by_contra hne
          exact hsome (if_neg hne)
        · exact absurd rfl hsome
      rw [hdst] at hready
      obtain ⟨p, hp, -, hsa⟩ := id hready
      obtain rfl := hdest a hx (by rw [(hkeeps.key a p hp).2, hsa])
      exact hready
  obtain ⟨ds, hds, hspill⟩ := hwire
  obtain ⟨ws, hws, hposts⟩ := hwrites
  refine ⟨ds.filter (fun d => d.dst == c.far s), ws.filterMap (RdmaOp.slotTo (c.far s)), ?_, ?_, ?_,
    fun hne => ?_⟩
  · unfold dgrams
    rw [ep_own, hds, List.filter_append]
  · show ((l.act c (.own s x)).ep s).writes.filterMap _ = _
    rw [ep_own, hws, List.filterMap_append]
    rfl
  · rintro ⟨g, hg, hring⟩
    obtain ⟨hg, hdst⟩ := List.mem_filter.mp hg
    exact hspill g hg (beq_iff_eq.mp hdst) hring
  · obtain ⟨v, hv⟩ := List.exists_mem_of_ne_nil _ hne
    obtain ⟨w, hw, hslot⟩ := List.mem_filterMap.mp hv
    exact hposts w hw (by rw [hslot]; exact Option.some_ne_none v)

end Link

namespace Duplex

variable {c : LinkCfg} {dest : Bool → UInt64} {s : Bool} {d : Duplex}

/-- **The invariant of a direction.** -/
structure Inv (c : LinkCfg) (dest : Bool → UInt64) (s : Bool) (d : Duplex) : Prop where
  link : d.link.Inv c
  plain : ∀ t, (d.link.ep t).ringBook.Plain (c.cfg t)
  drained : d.drained s ≤ (d.link.dgrams c s).length
  /-- The socket is used for messages only if the ring is out of use. -/
  spilled : (∃ g ∈ d.link.dgrams c s, g.ringable (c.geom s) = true) →
    (d.link.ep s).Ringless (dest s)
  /-- The ring is used only if the peer is `READY`. -/
  slotted : (d.link.side c s).posted ≠ [] → (d.link.ep s).ReadyFor (dest s) (c.far s)
  sent : d.sent s = (d.link.side c s).accepted.filterMap RingSlot.message?
    ++ (d.link.dgrams c s).filterMap (Dgram.message? (c.geom s))
  entered : d.entered s = (d.link.taken !s).filterMap RingSlot.message?
    ++ ((d.link.dgrams c s).take (d.drained s)).filterMap (c.heard? s)

theorem Inv.init (c : LinkCfg) (dest : Bool → UInt64) (s : Bool) (domain : Bool → Domain) :
    (init c domain).Inv c dest s where
  link := .init c domain
  plain _ := ⟨nofun, nofun, nofun⟩
  drained := le_rfl
  spilled := by
    rintro ⟨g, hg, -⟩
    cases hg
  slotted h := absurd rfl h
  sent := rfl
  entered := rfl

/-- A peer that is out of use is not `READY`. -/
theorem not_readyFor {ep : Ep} {a : UInt64} {sa : SockAddr} (h : ep.Ringless a) :
    ¬ ep.ReadyFor a sa := by
  rintro ⟨p, hp, hready, -⟩
  obtain ⟨q, hq, hdisabled⟩ | ⟨hnone, -⟩ := h
  · cases hp.symm.trans hq
    rw [hready] at hdisabled
    cases hdisabled
  · cases hp.symm.trans hnone

/-- What is no concern of the ring is no message here. -/
theorem filterMap_message?_eq_nil {g : RingGeom} {ds : List Dgram}
    (h : ¬ ∃ x ∈ ds, x.ringable g = true) : ds.filterMap (Dgram.message? g) = [] := by
  rw [List.filterMap_eq_nil_iff]
  intro x hx
  exact if_neg (fun hmsg => h ⟨x, hx, hmsg.1⟩)

theorem filterMap_heard? (c : LinkCfg) (s : Bool) (ds : List Dgram) :
    ds.filterMap (c.heard? s)
      = (ds.filter (fun g => g.bytes.length ≤ (c.cfg !s).rxBufSize)).filterMap
        (Dgram.message? (c.geom s)) := by
  rw [List.filterMap_filter]
  refine List.filterMap_congr (fun g _ => ?_)
  simp [LinkCfg.heard?]

theorem filterMap_heard?_eq_nil {c : LinkCfg} {s : Bool} {ds : List Dgram}
    (hnone : ¬ ∃ x ∈ ds, x.ringable (c.geom s) = true) : ds.filterMap (c.heard? s) = [] := by
  rw [filterMap_heard?]
  refine filterMap_message?_eq_nil (fun hring => hnone ?_)
  exact hring.imp (fun x hx => ⟨List.mem_of_mem_filter hx.1, hx.2⟩)

/-- **One channel is unused.** -/
theorem Inv.one_channel (h : d.Inv c dest s) :
    (d.link.side c s).posted = [] ∨ ¬ ∃ g ∈ d.link.dgrams c s, g.ringable (c.geom s) = true := by
  by_contra hboth
  obtain ⟨hposted, hspilled⟩ := not_or.mp hboth
  exact not_readyFor (h.spilled (not_not.mp hspilled)) (h.slotted hposted)

/-- **What has entered**, if one channel is unused: what was taken out of the ring, or what came
off the socket. -/
theorem Inv.entered_cases (h : d.Inv c dest s) :
    d.entered s <+: d.sent s ∨ (d.sent s = (d.link.dgrams c s).filterMap (Dgram.message? (c.geom s))
      ∧ d.entered s = ((d.link.dgrams c s).take (d.drained s)).filterMap (c.heard? s)) := by
  have htaken : d.link.taken (!s) <+: (d.link.side c s).accepted :=
    (h.link.linked s).1.ring.taken_prefix
  rw [h.entered, h.sent]
  obtain hnone | hnone := h.one_channel
  · have haccepted : (d.link.side c s).accepted = [] := by
      rw [RingEnd.accepted, hnone]
      rfl
    rw [haccepted] at htaken ⊢
    rw [List.prefix_nil.mp htaken]
    exact .inr ⟨rfl, rfl⟩
  · have hheard : ((d.link.dgrams c s).take (d.drained s)).filterMap (c.heard? s) = [] :=
      filterMap_heard?_eq_nil
        (fun hring => hnone (hring.imp (fun g hg => ⟨List.mem_of_mem_take hg.1, hg.2⟩)))
    rw [filterMap_message?_eq_nil hnone, hheard, List.append_nil, List.append_nil]
    exact .inl (htaken.filterMap _)

/-- **What has entered is in the order of what was accepted.** -/
theorem Inv.in_order (h : d.Inv c dest s) : (d.entered s).Sublist (d.sent s) := by
  obtain hprefix | ⟨hsent, hentered⟩ := h.entered_cases
  · exact hprefix.sublist
  · rw [hsent, hentered, filterMap_heard?]
    exact (List.filter_sublist.trans (List.take_sublist _ _)).filterMap _

/-- **Nothing is missing** if no message is too long for the buffer. -/
theorem Inv.entered_prefix (h : d.Inv c dest s)
    (hfits : ∀ g ∈ d.link.dgrams c s, g.ringable (c.geom s) = true →
      g.bytes.length ≤ (c.cfg !s).rxBufSize) : d.entered s <+: d.sent s := by
  obtain hprefix | ⟨hsent, hentered⟩ := h.entered_cases
  · exact hprefix
  · have hall : ((d.link.dgrams c s).take (d.drained s)).filterMap (c.heard? s)
        = ((d.link.dgrams c s).take (d.drained s)).filterMap (Dgram.message? (c.geom s)) := by
      refine List.filterMap_congr (fun g hg => ?_)
      by_cases hring : g.ringable (c.geom s) = true
      · exact if_pos (hfits g (List.mem_of_mem_take hg) hring)
      · have hnone : g.message? (c.geom s) = none := if_neg (fun hmsg => hring hmsg.1)
        rw [LinkCfg.heard?, hnone, ite_self]
    rw [hsent, hentered, hall]
    exact (List.take_prefix _ _).filterMap _

/-- **A peer that is `READY` stays `READY`.** -/
theorem Inv.ready_act (h : d.Inv c dest s) {x : EpAct}
    (hhears : ∀ op i, ((d.link.ep s).ringInputDue x).hears (c.addr s) op i →
      i.slots = (c.geom !s).slots ∧ i.slotSize = (c.geom !s).slotSize)
    (hready : (d.link.ep s).ReadyFor (dest s) (c.far s)) :
    ((d.link.ep s).act x).ReadyFor (dest s) (c.far s) := by
  obtain ⟨p, hp, hstate, hsa⟩ := hready
  have haddr := ((h.link.keeps s).key _ p hp).1
  have hself : (d.link.ep s).ringBook.table p.addr = some p := by rw [haddr]; exact hp
  have hdest : dest s = c.addr s :=
    haddr.symm.trans (((h.link.keeps s).far_iff hself hstate).mp hsa)
  have hpeer : (d.link.side c s).peer = p := by
    show (rdsPeerFind (d.link.ep s) (c.addr s)).getD _ = p
    rw [← hdest, hp]
    rfl
  -- both have one geometry, or the other's would not have been adopted
  have hgeom : ∀ op i, ((d.link.ep s).ringInputDue x).hears (dest s) op i →
      i.slots = (c.geom s).slots ∧ i.slotSize = (c.geom s).slotSize := by
    intro op i hin
    obtain ⟨hslots, hsize⟩ := hhears op i (hdest ▸ hin)
    obtain ⟨hslots', hsize'⟩ := (h.link.linked s).1.fits (by rw [hpeer]; exact hstate)
    obtain ⟨hslots'', hsize''⟩ := (h.plain s).ready _ p hp hstate
    rw [hpeer] at hslots' hsize'
    exact ⟨hslots.trans (hslots'.symm.trans hslots''), hsize.trans (hsize'.symm.trans hsize'')⟩
  have hrules := ((d.link.ep s).act_ring_due x).2
  rw [h.link.config] at hrules
  obtain ⟨q, hq, -, hqready⟩ := hrules.stays_ready hgeom hp haddr hstate
  obtain ⟨q', hq', hlasts⟩ := hrules.lasts hp
  cases hq.symm.trans hq'
  exact ⟨q, hq, hqready, hlasts.sa.trans hsa⟩

/-- **The sender acts.** -/
theorem Inv.own_sender (h : d.Inv c dest s) (hon : (c.cfg s).eagerRdma = true) {x : EpAct}
    (hadmits : d.link.Admits c (.own s x)) (halloc : ∀ env, x.env? = some env → env.AllocOk)
    (hrecv : ∀ env bytes, x = .recv env (c.far s) bytes →
      ∃ g ∈ d.link.dgrams c !s, g.bytes = bytes)
    (hdest : ∀ a, x.dest? = some a → rdsAvAddr (c.cfg s) a = some (c.far s) → a = dest s)
    (horder : x.dest? = some (dest s) → x.Orderly (c.cfg s)) : (d.own c s x).Inv c dest s := by
  obtain ⟨hlink, hplain⟩ := h.link.own_plain h.plain hadmits hrecv
  have hep : (d.link.act c (.own s x)).ep s = (d.link.ep s).act x := d.link.ep_own s x
  have hkeeps : c.Keeps s ((d.link.ep s).act x).ringBook := hep ▸ hlink.keeps s
  obtain ⟨ds, ws, hds, hws, hspill, hpost⟩ :=
    h.link.own_channels hkeeps hon halloc hdest horder
  have haccepted : ((d.link.act c (.own s x)).side c s).accepted
      = (d.link.side c s).accepted ++ ws.map SlotWrite.slot := by
    rw [RingEnd.accepted, hws, List.map_append]
    rfl
  have htaken : (d.link.act c (.own s x)).taken (!s) = d.link.taken !s :=
    Function.update_of_ne (Bool.not_ne_self s) _ _
  have hspilled : (∃ g ∈ (d.link.act c (.own s x)).dgrams c s, g.ringable (c.geom s) = true) →
      ((d.link.act c (.own s x)).ep s).Ringless (dest s) := by
    rintro ⟨g, hg, hring⟩
    rw [hep]
    rw [hds] at hg
    obtain hg | hg := List.mem_append.mp hg
    · exact (h.spilled ⟨g, hg, hring⟩).act x
    · exact hspill ⟨g, hg, hring⟩
  have hslotted : ((d.link.act c (.own s x)).side c s).posted ≠ [] →
      ((d.link.act c (.own s x)).ep s).ReadyFor (dest s) (c.far s) := by
    intro hne
    rw [hep]
    by_cases hnew : ws = []
    · rw [hws, hnew, List.append_nil] at hne
      exact h.ready_act (fun op i hin => h.link.hears (h.plain _) hrecv hin) (h.slotted hne)
    · exact hpost hnew
  -- what is accepted now goes after what went before, or there was none
  have hone : ws = [] ∨ (d.link.dgrams c s).filterMap (Dgram.message? (c.geom s)) = [] := by
    by_cases hnew : ws = []
    · exact .inl hnew
    · refine .inr (filterMap_message?_eq_nil ?_)
      rintro ⟨g, hg, hring⟩
      refine not_readyFor (hspilled ⟨g, ?_, hring⟩) (hslotted ?_)
      · rw [hds]
        exact List.mem_append_left _ hg
      · rw [hws]
        exact List.append_ne_nil_of_right_ne_nil _ hnew
  refine ⟨hlink, hplain, ?_, hspilled, hslotted, ?_, ?_⟩
  · show d.drained s ≤ _
    rw [Duplex.own, hds, List.length_append]
    exact h.drained.trans (Nat.le_add_right _ _)
  · show Function.update d.sent s _ s = _
    rw [Function.update_self, h.sent]
    show _ = ((d.link.act c (.own s x)).side c s).accepted.filterMap _
      ++ ((d.link.act c (.own s x)).dgrams c s).filterMap _
    rw [haccepted, hds, List.drop_left, List.drop_left, List.filterMap_append,
      List.filterMap_append, List.append_assoc, List.append_assoc, List.append_assoc]
    obtain rfl | hnone := hone
    · rfl
    · rw [hnone, List.nil_append, List.nil_append]
  · show Function.update d.entered (!s) _ s = _
    rw [Function.update_of_ne (Bool.self_ne_not s), h.entered]
    show _ = ((d.link.act c (.own s x)).taken !s).filterMap _
      ++ (((d.link.act c (.own s x)).dgrams c s).take (d.drained s)).filterMap _
    rw [htaken, hds, List.take_append_of_le_length h.drained]

/-- **The receiver acts.** -/
theorem Inv.own_receiver {t : Bool} (h : d.Inv c dest !t) {x : EpAct}
    (hadmits : d.link.Admits c (.own t x))
    (hrecv : ∀ env bytes, x = .recv env (c.far t) bytes →
      ∃ g ∈ d.link.dgrams c !t, g.bytes = bytes) : (d.own c t x).Inv c dest !t := by
  obtain ⟨hlink, hplain⟩ := h.link.own_plain h.plain hadmits hrecv
  have hep : (d.link.act c (.own t x)).ep (!t) = d.link.ep !t :=
    Function.update_of_ne (Bool.not_ne_self t) _ _
  have hdgrams : (d.link.act c (.own t x)).dgrams c (!t) = d.link.dgrams c !t := by
    unfold Link.dgrams
    rw [hep]
  have hposted : ((d.link.act c (.own t x)).side c !t).posted = (d.link.side c !t).posted := by
    show ((d.link.act c (.own t x)).ep !t).writes.filterMap _ = _
    rw [hep]
    rfl
  have haccepted : ((d.link.act c (.own t x)).side c !t).accepted
      = (d.link.side c !t).accepted := by
    rw [RingEnd.accepted, hposted]
    rfl
  have htaken : (d.link.act c (.own t x)).taken (!!t)
      = d.link.taken (!!t) ++ d.link.takes c t x := by
    rw [Bool.not_not]
    exact Function.update_self _ _ _
  -- what is taken out of the ring goes after what came off the socket, or there was none
  have hone : d.link.takes c t x = []
      ∨ ((d.link.dgrams c !t).take (d.drained !t)).filterMap (c.heard? !t) = [] := by
    obtain hnone | hnone := h.one_channel
    · have hprefix := (hlink.linked !t).1.ring.taken_prefix
      have hnil : ((d.link.act c (.own t x)).side c !t).accepted = [] := by
        rw [haccepted, RingEnd.accepted, hnone]
        rfl
      have htaken' : (d.link.act c (.own t x)).taken (!!t) = [] :=
        List.prefix_nil.mp (hnil ▸ hprefix)
      rw [htaken] at htaken'
      exact .inl (List.append_eq_nil_iff.mp htaken').2
    · refine .inr (filterMap_heard?_eq_nil ?_)
      rintro ⟨g, hg, hring⟩
      exact hnone ⟨g, List.mem_of_mem_take hg, hring⟩
  refine ⟨hlink, hplain, ?_, ?_, ?_, ?_, ?_⟩
  · show d.drained (!t) ≤ _
    rw [Duplex.own, hdgrams]
    exact h.drained
  · show (∃ g ∈ (d.link.act c (.own t x)).dgrams c (!t), _) →
      ((d.link.act c (.own t x)).ep !t).Ringless _
    rw [hdgrams, hep]
    exact h.spilled
  · show ((d.link.act c (.own t x)).side c !t).posted ≠ [] →
      ((d.link.act c (.own t x)).ep !t).ReadyFor _ _
    rw [hposted, hep]
    exact h.slotted
  · show Function.update d.sent t _ (!t)
      = ((d.link.act c (.own t x)).side c !t).accepted.filterMap _
        ++ ((d.link.act c (.own t x)).dgrams c !t).filterMap _
    rw [Function.update_of_ne (Bool.not_ne_self t), haccepted, hdgrams]
    exact h.sent
  · show Function.update d.entered (!t) _ (!t)
      = ((d.link.act c (.own t x)).taken !!t).filterMap _
        ++ (((d.link.act c (.own t x)).dgrams c !t).take (d.drained !t)).filterMap _
    rw [Function.update_self, htaken, hdgrams, List.filterMap_append, h.entered]
    obtain hnone | hnone := hone
    · rw [hnone, List.filterMap_nil, List.append_nil, List.append_nil]
    · rw [hnone, List.append_nil, List.append_nil]

/-- **The network acts.** -/
theorem Inv.net (h : d.Inv c dest s) {a : LinkAct} (hadmits : d.link.Admits c a)
    (ha : ∀ t x, a ≠ .own t x) : Inv c dest s { d with link := d.link.act c a } := by
  obtain ⟨htaken, hep⟩ := d.link.act_net (c := c) ha
  have hplain (t : Bool) : ((d.link.act c a).ep t).ringBook.Plain (c.cfg t) := by
    obtain heq | ⟨x, heq, -⟩ := hep t
    · rw [heq]
      exact h.plain t
    · have hrules := ((d.link.ep t).act_ring_due x).2
      rw [h.link.config] at hrules
      rw [heq]
      exact (h.plain t).rules hrules
  have hwire : ((d.link.act c a).ep s).wire = (d.link.ep s).wire := by
    obtain heq | ⟨x, heq, -, hwire, -⟩ := hep s
    · rw [heq]
    · rw [heq, hwire]
  have hwrites : ((d.link.act c a).ep s).writes = (d.link.ep s).writes := by
    obtain heq | ⟨x, heq, -, -, hwrites⟩ := hep s
    · rw [heq]
    · rw [heq, hwrites]
  have hdgrams : (d.link.act c a).dgrams c s = d.link.dgrams c s := by
    unfold Link.dgrams
    rw [hwire]
  have hposted : ((d.link.act c a).side c s).posted = (d.link.side c s).posted := by
    show ((d.link.act c a).ep s).writes.filterMap _ = _
    rw [hwrites]
    rfl
  have haccepted : ((d.link.act c a).side c s).accepted = (d.link.side c s).accepted := by
    rw [RingEnd.accepted, hposted]
    rfl
  refine ⟨h.link.act hadmits (fun t x hx => absurd hx (ha t x)), hplain, ?_, ?_, ?_, ?_, ?_⟩
  · show d.drained s ≤ ((d.link.act c a).dgrams c s).length
    rw [hdgrams]
    exact h.drained
  · intro hring
    have hring : ∃ g ∈ (d.link.act c a).dgrams c s, g.ringable (c.geom s) = true := hring
    rw [hdgrams] at hring
    show ((d.link.act c a).ep s).Ringless _
    obtain heq | ⟨x, heq, -⟩ := hep s
    · rw [heq]
      exact h.spilled hring
    · rw [heq]
      exact (h.spilled hring).act x
  · intro hne
    have hne : ((d.link.act c a).side c s).posted ≠ [] := hne
    rw [hposted] at hne
    show ((d.link.act c a).ep s).ReadyFor _ _
    obtain heq | ⟨x, heq, hhears, -⟩ := hep s
    · rw [heq]
      exact h.slotted hne
    · rw [heq]
      exact h.ready_act (fun op i hin => absurd hin (hhears _ op i)) (h.slotted hne)
  · show d.sent s = ((d.link.act c a).side c s).accepted.filterMap _
      ++ ((d.link.act c a).dgrams c s).filterMap _
    rw [haccepted, hdgrams]
    exact h.sent
  · show d.entered s = ((d.link.act c a).taken !s).filterMap _
      ++ (((d.link.act c a).dgrams c s).take (d.drained s)).filterMap _
    rw [htaken, hdgrams]
    exact h.entered

/-- The invariant, when a datagram was taken off the other's socket. -/
theorem Inv.drain {t : Bool} (h : d.Inv c dest s) {g : Dgram} {entered : List Message}
    (hget : (d.link.dgrams c !t)[d.drained !t]? = some g)
    (hentered : entered = d.entered (!t) ++ (c.heard? (!t) g).toList) :
    Inv c dest s { d with
      drained := Function.update d.drained (!t) (d.drained (!t) + 1)
      entered := Function.update d.entered (!t) entered } := by
  refine ⟨h.link, h.plain, ?_, h.spilled, h.slotted, h.sent, ?_⟩
  · show Function.update d.drained (!t) _ s ≤ _
    by_cases hs : s = !t
    · subst hs
      rw [Function.update_self]
      exact (List.getElem?_eq_some_iff.mp hget).1
    · rw [Function.update_of_ne hs]
      exact h.drained
  · show Function.update d.entered (!t) _ s
      = _ ++ List.filterMap _ (List.take (Function.update d.drained (!t) _ s) _)
    by_cases hs : s = !t
    · subst hs
      rw [Function.update_self, Function.update_self, List.take_add_one, hget,
        List.filterMap_append, Option.toList_some, filterMap_singleton, ← List.append_assoc,
        ← h.entered, hentered]
    · rw [Function.update_of_ne hs, Function.update_of_ne hs]
      exact h.entered

/-- **Every action keeps the invariant.** -/
theorem Inv.act (h : d.Inv c dest s) (hon : (c.cfg s).eagerRdma = true) {a : DuplexAct}
    (hadmits : d.Admits c dest a) (horder : Orderly c dest a) : (d.act c a).Inv c dest s := by
  have hside (t : Bool) : t = s ∨ s = !t := by
    cases s <;> cases t <;> simp
  cases a with
  | own t x =>
    obtain ⟨hlink, halloc, hrecv, hdest⟩ := hadmits
    have hrecv : ∀ env bytes, x = .recv env (c.far t) bytes →
        ∃ g ∈ d.link.dgrams c !t, g.bytes = bytes :=
      fun env bytes hx => absurd hx (hrecv env bytes)
    obtain rfl | rfl := hside t
    · exact h.own_sender hon hlink halloc hrecv hdest horder
    · exact h.own_receiver hlink hrecv
  | net a => exact h.net hadmits.1 hadmits.2
  | drain t env =>
    obtain ⟨hlt, halloc⟩ := hadmits
    have hget := List.getElem?_eq_getElem hlt
    generalize (d.link.dgrams c !t)[d.drained !t] = g at hget
    have hfar : (c.cfg !!t).rxBufSize = (c.cfg t).rxBufSize := by rw [Bool.not_not]
    unfold Duplex.act
    dsimp only
    rw [hget]
    dsimp only
    by_cases hfits : g.bytes.length ≤ (c.cfg t).rxBufSize
    · rw [if_pos hfits]
      have hrecv : ∀ env' bytes, EpAct.recv env (c.far t) g.bytes = .recv env' (c.far t) bytes →
          ∃ g ∈ d.link.dgrams c !t, g.bytes = bytes := by
        intro env' bytes heq
        cases heq
        exact ⟨g, List.mem_of_getElem? hget, rfl⟩
      have hown : (d.own c t (.recv env (c.far t) g.bytes)).Inv c dest s := by
        obtain rfl | rfl := hside t
        · exact h.own_sender hon ⟨trivial, trivial⟩
            (fun env' henv => by cases henv; exact halloc) hrecv nofun nofun
        · exact h.own_receiver ⟨trivial, trivial⟩ hrecv
      have hdgrams : (d.own c t (.recv env (c.far t) g.bytes)).link.dgrams c (!t)
          = d.link.dgrams c !t := by
        show List.filter _ (Function.update d.link.ep t _ (!t)).wire = _
        rw [Function.update_of_ne (Bool.not_ne_self t)]
        rfl
      refine hown.drain (g := g) (by rw [hdgrams]; exact hget) ?_
      rw [LinkCfg.heard?, hfar, if_pos hfits]
    · rw [if_neg hfits]
      have hnone : d.entered (!t) = d.entered (!t) ++ (c.heard? (!t) g).toList := by
        rw [LinkCfg.heard?, hfar, if_neg hfits, Option.toList_none, List.append_nil]
      have hdropped := h.drain hget hnone
      rwa [Function.update_eq_self] at hdropped

/-- **Messages to a peer take one channel and keep their order.** In every run in which the
condition on calls is met, one of the two channels to the other is unused, and what has entered
its matching engine is in the order in which it was accepted. If every message on the socket fits
the other's buffer, it is all that was accepted up to some point. -/
theorem one_channel_in_order (c : LinkCfg) (dest : Bool → UInt64) (domain : Bool → Domain)
    (acts : List DuplexAct) (hrun : Runs c dest domain acts)
    (horder : ∀ a ∈ acts, Orderly c dest a) (s : Bool) (hon : (c.cfg s).eagerRdma = true) :
    (((after c domain acts).link.side c s).accepted = []
        ∨ ∀ g ∈ (after c domain acts).link.dgrams c s, g.ringable (c.geom s) = false)
      ∧ ((after c domain acts).entered s).Sublist ((after c domain acts).sent s)
      ∧ ((∀ g ∈ (after c domain acts).link.dgrams c s, g.ringable (c.geom s) = true →
          g.bytes.length ≤ (c.cfg !s).rxBufSize) →
        (after c domain acts).entered s <+: (after c domain acts).sent s) := by
  have hinv : (after c domain acts).Inv c dest s :=
    Along.invariant (fun _ _ hinv hok => hinv.act hon hok.1 hok.2) (.init c dest s domain)
      (hrun.and (.of_forall horder))
  refine ⟨?_, hinv.in_order, hinv.entered_prefix⟩
  obtain hnone | hnone := hinv.one_channel
  · refine .inl ?_
    rw [RingEnd.accepted, hnone]
    rfl
  · exact .inr (fun g hg => Bool.eq_false_iff.mpr (fun hring => hnone ⟨g, hg, hring⟩))

/-! ## A long injection overtakes -/

theorem calm_allocOk : (Env.calm numberCookies).AllocOk := fun _ => rfl

theorem calm_supports : (Env.calm numberCookies).Supports := nofun

/-- The address the first endpoint sends to. -/
def second (_ : Bool) : UInt64 := 1

/-- A call is possible, if all goes well and it is for the second endpoint. -/
theorem admits_inject (d : Duplex) (buf len : ℕ) :
    d.Admits Link.twoEnds second
      (.own false (.inject (Env.calm numberCookies) buf len 1 0 false)) :=
  ⟨⟨trivial, trivial⟩, fun _ henv => by cases henv; exact calm_allocOk, fun _ _ => nofun,
    fun _ ha _ => by cases ha; rfl⟩

/-- The first endpoint asks for a handshake, and both hear of it. -/
def shakeHands : List DuplexAct :=
  [.own false (.inject (Env.calm numberCookies) 4096 8 1 0 false),
    .drain true (Env.calm numberCookies), .drain false (Env.calm numberCookies)]

theorem shakeHands_runs : Runs Link.twoEnds second Link.twoDomains shakeHands := by
  refine ⟨admits_inject _ 4096 8, ⟨?_, calm_allocOk⟩, ⟨?_, calm_allocOk⟩, trivial⟩
  · decide +kernel
  · decide +kernel

/-- A short message is injected. -/
def injectShort : DuplexAct := .own false (.inject (Env.calm numberCookies) 4096 8 1 0 false)

/-- It lands, and the second endpoint polls. -/
def takeShort : List DuplexAct :=
  [.net (.fetch false 0), .net (.land false), .own true (.poll (Env.calm numberCookies) 0)]

/-- A short message enters. -/
theorem short_message_enters :
    let acts := shakeHands ++ injectShort :: takeShort
    let d := after Link.twoEnds Link.twoDomains acts
    Runs Link.twoEnds second Link.twoDomains acts
      ∧ (∀ a ∈ acts, Orderly Link.twoEnds second a)
      ∧ (d.entered false).length = 1 ∧ d.entered false <+: d.sent false := by
  intro acts d
  have hrun : Runs Link.twoEnds second Link.twoDomains acts := by
    refine Along.append.mpr ⟨shakeHands_runs, admits_inject _ 4096 8, ⟨?_, fun _ _ => nofun⟩,
      ⟨?_, fun _ _ => nofun⟩, ⟨?_, fun _ henv => ?_, fun _ _ => nofun, nofun⟩, trivial⟩
    · decide +kernel
    · decide +kernel
    · decide +kernel
    · cases henv
      exact calm_allocOk
  have horder : ∀ a ∈ acts, Orderly Link.twoEnds second a := by
    have hshort : Orderly Link.twoEnds second injectShort := fun _ =>
      ⟨calm_supports, .inl (by decide)⟩
    simp only [acts, shakeHands, takeShort, List.cons_append, List.nil_append, List.forall_mem_cons]
    exact ⟨hshort, trivial, trivial, hshort, trivial, trivial, nofun, nofun⟩
  exact ⟨hrun, horder, by decide +kernel,
    (one_channel_in_order Link.twoEnds second Link.twoDomains acts hrun horder false rfl).2.2
      (by decide +kernel)⟩

/-- A message too long for a slot is injected. -/
def injectLong : DuplexAct := .own false (.inject (Env.calm numberCookies) 4096 1000 1 0 false)

/-- **A long injection overtakes a short one.** It takes the other channel, and enters first if
the second endpoint looks at its socket before the slot has landed. -/
theorem injection_overtakes :
    let acts := shakeHands ++ injectShort :: injectLong :: .drain true (Env.calm numberCookies)
      :: takeShort
    let d := after Link.twoEnds Link.twoDomains acts
    Runs Link.twoEnds second Link.twoDomains acts
      ∧ (Link.twoEnds.cfg false).eagerRdma = true
      ∧ (d.link.side Link.twoEnds false).accepted ≠ []
      ∧ (∃ g ∈ d.link.dgrams Link.twoEnds false,
        g.ringable (Link.twoEnds.geom false) = true)
      ∧ ¬ (d.entered false).Sublist (d.sent false) := by
  intro acts d
  refine ⟨Along.append.mpr ⟨shakeHands_runs, admits_inject _ 4096 8, admits_inject _ 4096 1000,
    ⟨?_, calm_allocOk⟩, ⟨?_, fun _ _ => nofun⟩, ⟨?_, fun _ _ => nofun⟩,
    ⟨?_, fun _ henv => ?_, fun _ _ => nofun, nofun⟩, trivial⟩, rfl, ?_, ?_, ?_⟩
  · decide +kernel
  · decide +kernel
  · decide +kernel
  · decide +kernel
  · cases henv
    exact calm_allocOk
  · decide +kernel
  · decide +kernel
  · decide +kernel

end Duplex
