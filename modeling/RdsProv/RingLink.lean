import RdsProv.RingFlow
import RdsProv.Handshake

/-!
# The ring between two endpoints is a queue

Two endpoints may do anything at all: every action of `EpAct` is allowed at both, in any
interleaving. An endpoint knows the other under the address its address vector has for the
other's socket; it may list it more than once or not at all. What the network does with the
writes they post to each other is explicit. The adapter reads the source of a write some time
after it was posted, be it a staging slot or the credit word, which may have changed
meanwhile; what it has read lands later. Slots land whole and in the order of their posting,
credit at any time.

Every action is a chain of ring rules, and every rule that concerns the record of the other
endpoint is a step of `RingEnd`; so in every state both directions are sound
(`Link.Inv`), provided that a geometry the endpoint adopts is the other's own
(`LinkCfg.Truthful`). Hence what an endpoint takes out of its ring is always a prefix of what
the other has been told was accepted, and the counters stay within a lap.
-/

/-- The slot write an operation is, if it goes to the given socket. -/
def RdmaOp.slotTo (sa : SockAddr) (w : RdmaOp) : Option SlotWrite :=
  match w.loc with
  | .stage idx slot => if w.dst = sa then some ⟨idx, w.remoteOff, slot⟩ else none
  | _ => none

theorem RdmaOp.slotTo_slotWrite (p : Peer) (slot : RingSlot) (sa : SockAddr) :
    (p.slotWrite slot).slotTo sa
      = if p.sa = sa then some ⟨p.txIdx, (p.slotWrite slot).remoteOff, slot⟩ else none := rfl

theorem filterMap_singleton {α β : Type} (f : α → Option β) (a : α) :
    [a].filterMap f = (f a).toList := by
  cases h : f a with
  | none => rw [List.filterMap_cons_none h]; rfl
  | some b => rw [List.filterMap_cons_some h]; rfl

/-- Whether an operation is a credit write to the given socket. -/
def RdmaOp.creditTo (sa : SockAddr) (w : RdmaOp) : Bool :=
  match w.loc with
  | .credit _ => w.dst = sa
  | _ => false

/-- The record of an address, or a blank one. -/
def RingBook.peer (b : RingBook) (a : UInt64) : Peer := (b.table a).getD (Peer.blank a 0)

/-- **Two endpoints.** -/
structure LinkCfg where
  cfg : Bool → EpCfg
  /-- An index of an address vector is an address. -/
  fits : ∀ s, (cfg s).av.length < 2 ^ 64

namespace LinkCfg

variable (c : LinkCfg) (s : Bool)

/-- The geometry of each. -/
abbrev geom : RingGeom := (c.cfg s).geom

/-- The socket of the other. -/
abbrev far : SockAddr := (c.cfg !s).self

/-- The address under which each knows the other. -/
def addr : UInt64 := ofiIpAvGetFiAddr (c.cfg s) (c.far s)

variable {c s} in
/-- What is listed there is the other. -/
theorem eq_far {sa : SockAddr} (h : rdsAvAddr (c.cfg s) (c.addr s) = some sa) : sa = c.far s := by
  by_cases hknown : c.addr s = fiAddrNotavail
  · -- nothing is listed at the last address
    have hget := getElem?_of_rdsAvAddr h
    rw [hknown, List.getElem?_eq_none (by have := c.fits s; show _ ≤ 2 ^ 64 - 1; omega)] at hget
    cases hget
  · have hlists := rdsAvAddr_of_get (c.fits s).le rfl hknown
    exact Option.some.inj (h.symm.trans hlists)

end LinkCfg

/-- **A link**: the endpoints, and for each what the network has done with its writes and
which slots it has taken. -/
structure Link where
  ep : Bool → Ep
  landed : Bool → ℕ
  fetched : Bool → ℕ → Option RingSlot
  credit : Bool → ℕ → Option UInt64
  taken : Bool → List RingSlot

/-- What can happen on a link. -/
inductive LinkAct where
  /-- An endpoint acts. -/
  | own (s : Bool) (a : EpAct)
  /-- The adapter reads the staging slot of the `n`th slot write of an endpoint. -/
  | fetch (s : Bool) (n : ℕ)
  /-- The oldest slot write of an endpoint lands. -/
  | land (s : Bool)
  /-- The adapter reads the credit word for the `n`th credit write of an endpoint. -/
  | fetchCredit (s : Bool) (n : ℕ)
  /-- The `n`th credit write of an endpoint lands. -/
  | landCredit (s : Bool) (n : ℕ)

namespace Link

variable (c : LinkCfg)

/-- One end of a link. -/
def side (l : Link) (s : Bool) : RingEnd where
  geom := c.geom s
  peer := (l.ep s).ringBook.peer (c.addr s)
  posted := (l.ep s).writes.filterMap (RdmaOp.slotTo (c.far s))
  landed := l.landed s
  fetched := l.fetched s
  credit := l.credit s
  taken := l.taken s

/-- The slots an action takes out of the ring kept for the other endpoint. -/
def takes (l : Link) (s : Bool) : EpAct → List RingSlot
  | .poll _ addr =>
    if addr = c.addr s then ((l.side c s).peer.nextSlot (c.geom s).slots).toList else []
  | _ => []

/-- One action. -/
def act (l : Link) : LinkAct → Link
  | .own s a => { l with
      ep := Function.update l.ep s ((l.ep s).act a)
      taken := Function.update l.taken s (l.taken s ++ l.takes c s a) }
  | .fetch s n => match (l.side c s).posted[n]? with
    | some w => { l with
        fetched := Function.update l.fetched s
          (Function.update (l.fetched s) n (some ((l.side c s).peer.txStage w.idx))) }
    | none => l
  | .land s => match (l.side c s).posted[l.landed s]?, l.fetched s (l.landed s) with
    | some w, some slot => { l with
        ep := Function.update l.ep (!s) ((l.ep !s).act
          (.landSlot (c.addr !s) (w.off.toNat / (c.geom !s).slotSize.toNat) slot))
        landed := Function.update l.landed s (l.landed s + 1) }
    | _, _ => l
  | .fetchCredit s n => { l with
      credit := Function.update l.credit s
        (Function.update (l.credit s) n (some (l.side c s).peer.creditTx)) }
  | .landCredit s n => match l.credit s n with
    | some v => { l with
        ep := Function.update l.ep (!s) ((l.ep !s).act (.landCredit (c.addr !s) v)) }
    | none => l

variable {c} in
theorem ep_own (l : Link) (s : Bool) (a : EpAct) : (l.act c (.own s a)).ep s = (l.ep s).act a := by
  show Function.update l.ep s ((l.ep s).act a) s = _
  rw [Function.update_self]

variable {c} in
theorem act_fetch {l : Link} {s : Bool} {n : ℕ} {w : SlotWrite}
    (hw : (l.side c s).posted[n]? = some w) :
    l.act c (.fetch s n) = { l with
      fetched := Function.update l.fetched s
        (Function.update (l.fetched s) n (some ((l.side c s).peer.txStage w.idx))) } := by
  unfold act
  dsimp only
  rw [hw]

variable {c} in
theorem act_land {l : Link} {s : Bool} {w : SlotWrite} {slot : RingSlot}
    (hw : (l.side c s).posted[l.landed s]? = some w)
    (hslot : l.fetched s (l.landed s) = some slot) :
    l.act c (.land s) = { l with
      ep := Function.update l.ep (!s) ((l.ep !s).act
        (.landSlot (c.addr !s) (w.off.toNat / (c.geom !s).slotSize.toNat) slot))
      landed := Function.update l.landed s (l.landed s + 1) } := by
  unfold act
  dsimp only
  rw [hw, hslot]

variable {c} in
theorem act_landCredit {l : Link} {s : Bool} {n : ℕ} {v : UInt64} (hv : l.credit s n = some v) :
    l.act c (.landCredit s n) = { l with
      ep := Function.update l.ep (!s) ((l.ep !s).act (.landCredit (c.addr !s) v)) } := by
  unfold act
  dsimp only
  rw [hv]

/-- What is possible on a link: only what was posted is read, and only what was read lands,
in the ring or the cell that the other endpoint keeps. -/
def Admits (l : Link) : LinkAct → Prop
  | .own s a => (l.ep s).Admits a ∧ match a with
    | .landSlot addr _ _ => rdsAvAddr (c.cfg s) addr ≠ some (c.far s)
    | .landCredit addr _ => rdsAvAddr (c.cfg s) addr ≠ some (c.far s)
    | _ => True
  | .fetch s n => l.landed s ≤ n ∧ n < (l.side c s).posted.length
  | .land s => (l.fetched s (l.landed s)).isSome ∧ (rdsPeerFind (l.ep !s) (c.addr !s)).isSome
  | .fetchCredit s n => n < ((l.ep s).writes.filter (RdmaOp.creditTo (c.far s))).length
  | .landCredit s n => (l.credit s n).isSome ∧ (rdsPeerFind (l.ep !s) (c.addr !s)).isSome

instance (l : Link) : ∀ a, Decidable (l.Admits c a)
  | .own s a => by
    have : Decidable (match a with
        | .landSlot addr _ _ => rdsAvAddr (c.cfg s) addr ≠ some (c.far s)
        | .landCredit addr _ => rdsAvAddr (c.cfg s) addr ≠ some (c.far s)
        | _ => True) := by split <;> infer_instance
    exact inferInstanceAs (Decidable (_ ∧ _))
  | .fetch _ _ => inferInstanceAs (Decidable (_ ∧ _))
  | .land _ => inferInstanceAs (Decidable (_ ∧ _))
  | .fetchCredit _ _ => inferInstanceAs (Decidable (_ < _))
  | .landCredit _ _ => inferInstanceAs (Decidable (_ ∧ _))

/-- A link at the opening of its endpoints. -/
def init (domain : Bool → Domain) : Link where
  ep s := Ep.init (c.cfg s) (domain s)
  landed _ := 0
  fetched _ _ := none
  credit _ _ := none
  taken _ := []

/-- A run of a link from the opening of its endpoints. -/
def Runs (domain : Bool → Domain) (acts : List LinkAct) : Prop :=
  Along (Link.act c) (Link.Admits c) (init c domain) acts

instance (domain : Bool → Domain) (acts : List LinkAct) : Decidable (Runs c domain acts) :=
  inferInstanceAs (Decidable (Along (Link.act c) (Link.Admits c) (init c domain) acts))

/-- The state a run leads to. -/
def after (domain : Bool → Domain) (acts : List LinkAct) : Link :=
  acts.foldl (Link.act c) (init c domain)

end Link

/-! ## Rules are steps -/

namespace LinkCfg

variable {c : LinkCfg} {s : Bool}

/-- **An endpoint keeps one ring for the other.** -/
structure Keeps (c : LinkCfg) (s : Bool) (b : RingBook) : Prop where
  /-- Records are under their addresses, and the address vector lists them. -/
  key : ∀ a p, b.table a = some p → p.addr = a ∧ rdsAvAddr (c.cfg s) a = some p.sa
  /-- Another record for the other endpoint's socket is not `READY`, and its ring is clear. -/
  sole : ∀ a p, b.table a = some p → p.sa = c.far s → a ≠ c.addr s →
    p.state ≠ .ready ∧ p.rxRing = fun _ => .zero

/-- What an endpoint hears from the other, and what lands for it, is under its address. -/
structure Known (c : LinkCfg) (s : Bool) (inp : RingInput) : Prop where
  hears : ∀ a op i, inp.hears a op i → rdsAvAddr (c.cfg s) a = some (c.far s) → a = c.addr s
  lands : ∀ a idx slot, inp.lands a idx slot → rdsAvAddr (c.cfg s) a = some (c.far s) →
    a = c.addr s

namespace Keeps

variable {inp : RingInput} {b b' : RingBook}

theorem put (hb : c.Keeps s b) {q : Peer} (hq : rdsAvAddr (c.cfg s) q.addr = some q.sa)
    (hsole : q.sa = c.far s → q.addr ≠ c.addr s → q.state ≠ .ready ∧ q.rxRing = fun _ => .zero) :
    c.Keeps s (b.put q) := by
  have hcases {a : UInt64} {p : Peer} (hp : (b.put q).table a = some p) :
      (a = q.addr ∧ p = q) ∨ b.table a = some p := by
    by_cases ha : a = q.addr
    · rw [ha, RingBook.table_put_self] at hp
      exact .inl ⟨ha, (Option.some.inj hp).symm⟩
    · rw [RingBook.table_put_of_ne b ha] at hp
      exact .inr hp
  refine ⟨fun a p hp => ?_, fun a p hp => ?_⟩
  · obtain ⟨rfl, rfl⟩ | hp := hcases hp
    · exact ⟨rfl, hq⟩
    · exact hb.key a p hp
  · obtain ⟨rfl, rfl⟩ | hp := hcases hp
    · exact hsole
    · exact hb.sole a p hp

/-- A record is put back. -/
theorem put_back (hb : c.Keeps s b) {p q : Peer} (hp : b.table p.addr = some p)
    (htable : b'.table = (b.put q).table) (haddr : q.addr = p.addr) (hsa : q.sa = p.sa)
    (hsole : p.sa = c.far s → p.addr ≠ c.addr s → p.state ≠ .ready →
      (p.rxRing = fun _ => .zero) → q.state ≠ .ready ∧ q.rxRing = fun _ => .zero) :
    c.Keeps s b' := by
  have hput : c.Keeps s (b.put q) := by
    refine hb.put ?_ (fun hfar hne => ?_)
    · rw [haddr, hsa]
      exact (hb.key _ p hp).2
    · rw [hsa] at hfar
      rw [haddr] at hne
      obtain ⟨hstate, hring⟩ := hb.sole _ p hp hfar hne
      exact hsole hfar hne hstate hring
  exact ⟨htable ▸ hput.key, htable ▸ hput.sole⟩

/-- **A rule keeps one ring for the other endpoint.** -/
theorem rule (hb : c.Keeps s b) (hin : c.Known s inp) (h : RingBook.Rule (c.cfg s) inp b b') :
    c.Keeps s b' := by
  have hcredit {p : Peer} {v : UInt64} (hp : b.table p.addr = some p) :
      c.Keeps s (b.put (p.absorbAck v)) := by
    obtain ⟨t, ht, -⟩ := p.absorbAck_eq v
    rw [ht]
    exact hb.put_back hp rfl rfl rfl (fun _ _ hstate hring => ⟨hstate, hring⟩)
  cases h with
  | quiet h =>
    cases h with
    | create _ hsa hq =>
      obtain ⟨ring, credit, rfl⟩ | rfl := hq
      · exact hb.put hsa (fun _ _ => ⟨nofun, rfl⟩)
      · exact hb.put hsa (fun _ _ => ⟨nofun, rfl⟩)
    | refresh hp => exact hcredit hp
    | kick hp | expire hp | refuse hp =>
      exact hb.put_back hp rfl rfl rfl (fun _ _ _ hring => ⟨nofun, hring⟩)
    | stage hp => exact hb.put_back hp rfl rfl rfl (fun _ _ hstate hring => ⟨hstate, hring⟩)
    | @adopt p op i _ hp hears =>
      refine hb.put_back hp rfl rfl rfl (fun hfar hne => absurd ?_ hne)
      refine hin.hears _ op i hears ?_
      rw [(hb.key _ p hp).2, hfar]
  | absorb hp => exact hcredit hp
  | place hp | consume hp | withhold hp | credit hp | landCredit hp =>
    exact hb.put_back hp rfl rfl rfl (fun _ _ hstate hring => ⟨hstate, hring⟩)
  | @land p idx slot hp lands =>
    refine hb.put_back hp rfl rfl rfl (fun hfar hne => absurd ?_ hne)
    refine hin.lands _ idx slot lands ?_
    rw [(hb.key _ p hp).2, hfar]

theorem rules (hb : c.Keeps s b) (hin : c.Known s inp) (h : RingBook.Rules (c.cfg s) inp b b') :
    c.Keeps s b' := by
  induction h with
  | refl => exact hb
  | tail _ hstep ih => exact ih.rule hin hstep

/-- A slot is written to the other endpoint exactly if it is written for its address. -/
theorem far_iff (hb : c.Keeps s b) {p : Peer} (hp : b.table p.addr = some p)
    (hready : p.state = .ready) : p.sa = c.far s ↔ p.addr = c.addr s := by
  have hsa := (hb.key _ p hp).2
  constructor
  · intro hfar
    by_contra hne
    exact (hb.sole _ p hp hfar hne).1 hready
  · intro ha
    rw [ha] at hsa
    exact eq_far hsa

end Keeps

end LinkCfg

/-- What lands is found in the record. -/
theorem rdsPeerFind_updPeer_self {ep : Ep} {a : UInt64} {p : Peer} (f : Peer → Peer)
    (hf : ∀ p, (f p).addr = p.addr) (hp : rdsPeerFind ep a = some p) :
    rdsPeerFind (ep.updPeer a f) a = some (f p) := by
  rw [rdsPeerFind_updPeer ep a hf, Function.update_self, hp]
  rfl

theorem RingBook.peer_updPeer {ep : Ep} {a : UInt64} (f : Peer → Peer)
    (hf : ∀ p, (f p).addr = p.addr) (hsome : (rdsPeerFind ep a).isSome) :
    (ep.updPeer a f).ringBook.peer a = f (ep.ringBook.peer a) := by
  obtain ⟨p, hp⟩ := Option.isSome_iff_exists.mp hsome
  show (rdsPeerFind (ep.updPeer a f) a).getD _ = f ((rdsPeerFind ep a).getD _)
  rw [rdsPeerFind_updPeer_self f hf hp, hp]
  rfl

namespace LinkCfg

variable (c : LinkCfg) (s : Bool)

/-- An end, once the book of its endpoint is the given one. -/
def see (b : RingBook) (e : RingEnd) : RingEnd :=
  { e with
    geom := c.geom s
    peer := b.peer (c.addr s)
    posted := b.writes.filterMap (RdmaOp.slotTo (c.far s)) }

variable {c s} {b : RingBook} {e : RingEnd}

theorem peer_see {p : Peer} (hp : b.table p.addr = some p) (ha : p.addr = c.addr s) :
    (c.see s b e).peer = p := by
  show (b.table (c.addr s)).getD _ = p
  rw [← ha, hp]
  rfl

theorem see_put {q : Peer} (ha : q.addr = c.addr s) :
    c.see s (b.put q) e = { c.see s b e with peer := q } := by
  have hpeer : (b.put q).peer (c.addr s) = q := by
    rw [RingBook.peer, ← ha, RingBook.table_put_self]
    rfl
  unfold see
  rw [hpeer]
  rfl

theorem see_put_of_ne {q : Peer} (ha : q.addr ≠ c.addr s) : c.see s (b.put q) e = c.see s b e := by
  have hpeer : (b.put q).peer (c.addr s) = b.peer (c.addr s) := by
    rw [RingBook.peer, RingBook.table_put_of_ne b ha.symm]
    rfl
  unfold see
  rw [hpeer]
  rfl

theorem see_posting (w : RdmaOp) :
    c.see s (b.posting w) e = { c.see s b e with
      posted := (c.see s b e).posted ++ (w.slotTo (c.far s)).toList } := by
  have hposted : (b.writes ++ [w]).filterMap (RdmaOp.slotTo (c.far s))
      = b.writes.filterMap (RdmaOp.slotTo (c.far s))
        ++ (w.slotTo (c.far s)).toList := by
    rw [List.filterMap_append, filterMap_singleton]
  unfold see RingBook.posting
  dsimp only
  rw [hposted]
  rfl

theorem see_posting_of_none {w : RdmaOp} (hw : w.slotTo (c.far s) = none) :
    c.see s (b.posting w) e = c.see s b e := by
  rw [see_posting, hw, Option.toList_none, List.append_nil]

variable {inp : RingInput} {b' : RingBook}

/-- Some steps of an end. -/
abbrev Steps (g : RingGeom) := Relation.ReflTransGen (RingEnd.Step g)

/-- **Truthful handshakes**: what an endpoint hears of the other's geometry, if it is one it
adopts, is the other's own. -/
def Truthful (c : LinkCfg) (s : Bool) (inp : RingInput) : Prop :=
  ∀ op i, inp.hears (c.addr s) op i → i.slots = (c.geom s).slots →
    i.slotSize = (c.geom s).slotSize →
      i.slots = (c.geom !s).slots ∧ i.slotSize = (c.geom !s).slotSize

/-- Between endpoints of one geometry they all are. -/
theorem Truthful.of_geom (hgeom : c.geom s = c.geom !s) : c.Truthful s inp :=
  fun _ _ _ hslots hsize => hgeom ▸ ⟨hslots, hsize⟩

/-- A record is put back: if it is the one kept for the other endpoint, that is a step. -/
theorem steps_put {p q : Peer} (hp : b.table p.addr = some p) (haddr : q.addr = p.addr)
    (hstep : ∀ x : RingEnd, x.geom = c.geom s → x.peer = p →
      RingEnd.Step (c.geom !s) x { x with peer := q }) :
    Steps (c.geom !s) (c.see s b e) (c.see s (b.put q) e) := by
  by_cases ha : p.addr = c.addr s
  · rw [see_put (haddr.trans ha)]
    exact .single (hstep _ rfl (peer_see hp ha))
  · rw [see_put_of_ne (haddr ▸ ha)]

/-- A record is put back that differs in nothing that matters. -/
theorem steps_same {p q : Peer} (hp : b.table p.addr = some p) (haddr : q.addr = p.addr)
    (hsame : p.SameRing q) (hfits : p.addr = c.addr s → q.Fits (c.geom !s)) :
    Steps (c.geom !s) (c.see s b e) (c.see s (b.put q) e) := by
  by_cases ha : p.addr = c.addr s
  · exact steps_put hp haddr (fun _ _ hx => .same (hx ▸ hsame) (hfits ha))
  · rw [see_put_of_ne (haddr ▸ ha)]

/-- **A quiet rule is a step of the end**, or none. -/
theorem quiet_steps (h : RingBook.Quiet (c.cfg s) inp b b') (htruth : c.Truthful s inp) :
    Steps (c.geom !s) (c.see s b e) (c.see s b' e) := by
  cases h with
  | @create a sa p hnone hsa hp =>
    have haddr : p.addr = a := by
      obtain ⟨ring, credit, rfl⟩ | rfl := hp
      · rfl
      · rfl
    by_cases ha : a = c.addr s
    · have hblank : (c.see s b e).peer = Peer.blank a 0 := by
        show (b.table (c.addr s)).getD _ = _
        rw [← ha, hnone]
        rfl
      rw [see_put (haddr.trans ha)]
      refine .single (.same ?_ ?_)
      · rw [hblank]
        obtain ⟨ring, credit, rfl⟩ | rfl := hp
        · exact ⟨rfl, rfl, rfl, rfl, rfl, rfl, rfl⟩
        · exact ⟨rfl, rfl, rfl, rfl, rfl, rfl, rfl⟩
      · intro hready
        obtain ⟨ring, credit, rfl⟩ | rfl := hp
        · cases hready
        · cases hready
    · rw [see_put_of_ne (haddr.trans_ne ha)]
  | kick hp =>
    exact steps_same hp rfl ⟨rfl, rfl, rfl, rfl, rfl, rfl, rfl⟩ (fun _ hready => by cases hready)
  | expire hp =>
    exact steps_same hp rfl ⟨rfl, rfl, rfl, rfl, rfl, rfl, rfl⟩ (fun _ hready => by cases hready)
  | refuse hp =>
    exact steps_same hp rfl ⟨rfl, rfl, rfl, rfl, rfl, rfl, rfl⟩ (fun _ hready => by cases hready)
  | @adopt p op i _ hp hin _ _ _ hslots hsize =>
    exact steps_same hp rfl ⟨rfl, rfl, rfl, rfl, rfl, rfl, rfl⟩
      (fun ha _ => htruth op i (ha ▸ hin) hslots hsize)
  | @refresh p hp =>
    refine steps_put hp (Peer.Steady.refreshCredit p).addr (fun x hg hx => ?_)
    subst hx
    exact .refresh
  | stage hp hready hfull =>
    refine steps_put hp rfl (fun x hg hx => ?_)
    subst hx
    exact .stage hready hfull

/-- **A calm rule is a step of the end**, or none, if nothing lands. -/
theorem calm_steps (h : RingBook.Calm (c.cfg s) inp b b') (hb : c.Keeps s b)
    (htruth : c.Truthful s inp)
    (hlands : ∀ a idx slot, inp.lands a idx slot → rdsAvAddr (c.cfg s) a ≠ some (c.far s))
    (hcredits : ∀ a v, inp.credits a v → rdsAvAddr (c.cfg s) a ≠ some (c.far s)) :
    Steps (c.geom !s) (c.see s b e) (c.see s b' e) := by
  obtain ⟨hrule, hheads⟩ := h
  have hlists {p : Peer} (hp : b.table p.addr = some p) (ha : p.addr = c.addr s) :
      rdsAvAddr (c.cfg s) p.addr = some (c.far s) := by
    have hsa := (hb.key _ p hp).2
    rw [ha] at hsa ⊢
    rw [hsa, eq_far hsa]
  cases hrule with
  | quiet h => exact quiet_steps h htruth
  | @place p op flags tag data payload hp hready hfull =>
    have hfar := hb.far_iff hp hready
    generalize hfill : p.fillSlot op flags tag data payload = slot
    by_cases ha : p.addr = c.addr s
    · have hposted : c.see s ((b.put (p.advance slot)).posting (p.slotWrite slot)) e
          = (c.see s b e).post slot := by
        rw [see_posting, see_put (q := p.advance slot) ha, RingEnd.post, peer_see hp ha,
          RdmaOp.slotTo_slotWrite, if_pos (hfar.mpr ha)]
        rfl
      rw [hposted, ← hfill]
      have hpeer : (c.see s b e).peer = p := peer_see hp ha
      generalize c.see s b e = x at hpeer ⊢
      subst hpeer
      exact .single (.place hready hfull)
    · have hslot : (p.slotWrite slot).slotTo (c.far s) = none := by
        rw [RdmaOp.slotTo_slotWrite, if_neg (fun hsa => ha (hfar.mp hsa))]
      rw [see_posting_of_none hslot, see_put_of_ne (q := p.advance slot) ha]
  | @absorb p slot hp hnext =>
    refine steps_put hp (Peer.Steady.absorbAck p slot.ack).addr (fun x hg hx => ?_)
    subst hx
    exact .absorb (hg ▸ hnext)
  | @consume p slot hp =>
    obtain ⟨p', hp', hhead⟩ := hheads _ p hp
    have hself := b.table_put_self { p with rxHead := p.rxHead + 1 }
    cases hself.symm.trans hp'
    simp at hhead
  | withhold hp =>
    refine steps_put hp rfl (fun x hg hx => ?_)
    subst hx
    exact .owe
  | @credit p hp =>
    rw [see_posting_of_none rfl]
    refine steps_put hp rfl (fun x hg hx => ?_)
    subst hx
    exact .owe
  | @land p idx slot hp hin =>
    by_cases ha : p.addr = c.addr s
    · exact absurd (hlists hp ha) (hlands _ idx slot hin)
    · rw [see_put_of_ne]
      exact ha
  | @landCredit p v hp hin =>
    by_cases ha : p.addr = c.addr s
    · exact absurd (hlists hp ha) (hcredits _ v hin)
    · rw [see_put_of_ne]
      exact ha

theorem calms_steps (h : RingBook.Calms (c.cfg s) inp b b') (hb : c.Keeps s b)
    (hknown : c.Known s inp) (htruth : c.Truthful s inp)
    (hlands : ∀ a idx slot, inp.lands a idx slot → rdsAvAddr (c.cfg s) a ≠ some (c.far s))
    (hcredits : ∀ a v, inp.credits a v → rdsAvAddr (c.cfg s) a ≠ some (c.far s)) :
    Steps (c.geom !s) (c.see s b e) (c.see s b' e) := by
  induction h with
  | refl => exact .refl
  | tail hcalms hstep ih =>
    have hb := hb.rules hknown (RingBook.Calms.rules hcalms)
    exact ih.trans (calm_steps hstep hb htruth hlands hcredits)

end LinkCfg

/-! ## The invariant -/

/-- Both directions between two ends are sound. -/
def RingEnd.Linked (a b : RingEnd) : Prop := a.Sound b ∧ b.Sound a

theorem RingEnd.Linked.steps {a a' b : RingEnd} (h : a.Linked b)
    (hsteps : LinkCfg.Steps b.geom a a') : a'.Linked b := by
  induction hsteps with
  | refl => exact h
  | tail _ hstep ih => exact hstep.sound ih.1 ih.2

namespace Link

variable {c : LinkCfg} {l : Link}

/-- **The invariant of a link.** -/
structure Inv (c : LinkCfg) (l : Link) : Prop where
  config : ∀ s, (l.ep s).cfg = c.cfg s
  keeps : ∀ s, c.Keeps s (l.ep s).ringBook
  linked : ∀ s, (l.side c s).Linked (l.side c !s)

/-- It is enough to look from one end. -/
theorem linked_of {s : Bool} (h : (l.side c s).Linked (l.side c !s)) (t : Bool) :
    (l.side c t).Linked (l.side c !t) := by
  obtain rfl | rfl : t = s ∨ t = !s := by cases s <;> cases t <;> simp
  · exact h
  · rw [Bool.not_not]
    exact ⟨h.2, h.1⟩

theorem sound_init (c : LinkCfg) (domain : Bool → Domain) (s : Bool) :
    ((init c domain).side c s).Sound ((init c domain).side c !s) where
  ring := .init (fun _ hn => (c.geom !s).slotStamp_first hn)
  fits hready := by cases hready
  txHead := rfl
  rxHead := rfl
  places _ _ hw := by cases hw
  acks _ hx := by cases hx
  creditTx := le_rfl
  credit _ _ hv := by cases hv
  cell := le_rfl

theorem Inv.init (c : LinkCfg) (domain : Bool → Domain) : (init c domain).Inv c where
  config _ := rfl
  keeps _ := ⟨fun _ _ hp => (by cases hp), fun _ _ hp => (by cases hp)⟩
  linked s := ⟨sound_init c domain s, by simpa using sound_init c domain (!s)⟩

section Step

variable (h : l.Inv c)

include h

/-- An endpoint acts, and the network does what it does: both ends stay linked. -/
theorem Inv.of_ends {l' : Link} {s t : Bool} {ep : Ep} (hep : l'.ep = Function.update l.ep t ep)
    (hcfg : ep.cfg = (l.ep t).cfg) (hkeeps : c.Keeps t ep.ringBook)
    (hlinked : (l'.side c s).Linked (l'.side c !s)) : l'.Inv c where
  config u := by
    rw [hep]
    by_cases hu : u = t
    · rw [hu, Function.update_self, hcfg, h.config]
    · rw [Function.update_of_ne hu, h.config]
  keeps u := by
    rw [hep]
    by_cases hu : u = t
    · rw [hu, Function.update_self]
      exact hkeeps
    · rw [Function.update_of_ne hu]
      exact h.keeps u
  linked := linked_of hlinked

/-- An endpoint acts: its end takes some steps, the other none. -/
theorem Inv.own_of {s : Bool} {ep : Ep} {taken : List RingSlot} (hcfg : ep.cfg = (l.ep s).cfg)
    (hkeeps : c.Keeps s ep.ringBook)
    (hsteps : LinkCfg.Steps (c.geom !s) (l.side c s)
      (c.see s ep.ringBook { l.side c s with taken := taken })) :
    Inv c { l with
      ep := Function.update l.ep s ep
      taken := Function.update l.taken s taken } := by
  refine h.of_ends (s := s) rfl hcfg hkeeps ?_
  have hnear : side c { l with
      ep := Function.update l.ep s ep, taken := Function.update l.taken s taken } s
      = c.see s ep.ringBook { l.side c s with taken := taken } := by
    simp only [side, Function.update_self]
    rfl
  have hfar : side c { l with
      ep := Function.update l.ep s ep, taken := Function.update l.taken s taken } (!s)
      = l.side c !s := by
    simp [side]
  rw [hnear, hfar]
  exact (h.linked s).steps hsteps

/-- The adapter reads something. -/
theorem Inv.fetched_of (s : Bool) (fetched : ℕ → Option RingSlot) (credit : ℕ → Option UInt64)
    (hstep : RingEnd.Step (c.geom !s) (l.side c s)
      { l.side c s with fetched := fetched, credit := credit }) :
    Inv c { l with
      fetched := Function.update l.fetched s fetched
      credit := Function.update l.credit s credit } := by
  refine ⟨h.config, h.keeps, linked_of (s := s) ?_⟩
  have hnear : side c { l with
      fetched := Function.update l.fetched s fetched
      credit := Function.update l.credit s credit } s
      = { l.side c s with fetched := fetched, credit := credit } := by
    simp [side]
  have hfar : side c { l with
      fetched := Function.update l.fetched s fetched
      credit := Function.update l.credit s credit } (!s) = l.side c !s := by
    simp [side]
  rw [hnear, hfar]
  exact hstep.sound (h.linked s).1 (h.linked s).2

/-- **What an endpoint takes in from the other is under its address.** -/
theorem Inv.known {s : Bool} {a : EpAct}
    (hlands : ∀ addr idx slot, a = .landSlot addr idx slot →
      rdsAvAddr (c.cfg s) addr = some (c.far s) → addr = c.addr s) :
    c.Known s ((l.ep s).ringInputDue a) := by
  refine ⟨fun addr op i hin hfar => ?_, fun addr idx slot hin hfar => ?_⟩
  · cases a with
    | recv env src bytes =>
      obtain ⟨-, hidx, hknown⟩ := hin
      rw [h.config] at hidx
      have hsrc := rdsAvAddr_of_get (c.fits s).le hidx hknown
      cases hsrc.symm.trans hfar
      exact hidx.symm
    | poll env addr' =>
      obtain ⟨rfl, p, slot, hp, hnext, hctrl⟩ := hin
      by_contra hne
      have hsa := ((h.keeps s).key _ p hp).2
      have hring := ((h.keeps s).sole _ p hp (Option.some.inj (hsa.symm.trans hfar)) hne).2
      rw [Peer.nextSlot_eq_some hnext, hring] at hctrl
      cases hctrl
    | _ => exact hin.elim
  · cases a with
    | landSlot addr' idx' slot' =>
      obtain ⟨rfl, -⟩ := hin
      exact hlands _ _ _ rfl hfar
    | _ => exact hin.elim

/-- **An action other than a poll.** -/
theorem Inv.own_calm {s : Bool} {a : EpAct} (hadmits : l.Admits c (.own s a))
    (htruth : c.Truthful s ((l.ep s).ringInputDue a))
    (hpoll : ∀ env addr, a ≠ .poll env addr) : (l.act c (.own s a)).Inv c := by
  obtain ⟨hcfg, hcalms⟩ := (l.ep s).act_calm a hpoll
  rw [h.config] at hcalms
  have hnone : l.takes c s a = [] := by
    cases a with
    | poll env addr => exact absurd rfl (hpoll env addr)
    | _ => rfl
  have hlands : ∀ addr idx slot, ((l.ep s).ringInputDue a).lands addr idx slot →
      rdsAvAddr (c.cfg s) addr ≠ some (c.far s) := by
    intro addr idx slot hin
    cases a with
    | landSlot addr' =>
      obtain ⟨rfl, -⟩ := hin
      exact hadmits.2
    | _ => exact hin.elim
  have hknown : c.Known s ((l.ep s).ringInputDue a) := by
    refine h.known (fun addr idx slot ha hfar => absurd hfar (hlands addr idx slot ?_))
    rw [ha]
    exact ⟨rfl, rfl, rfl⟩
  refine h.own_of hcfg ((h.keeps s).rules hknown hcalms.rules) ?_
  rw [hnone, List.append_nil]
  refine LinkCfg.calms_steps (e := l.side c s) hcalms (h.keeps s) hknown htruth hlands ?_
  intro addr v hin
  cases a with
  | landCredit addr' =>
    obtain ⟨rfl, -⟩ := hin
    exact hadmits.2
  | _ => exact hin.elim

omit h in
/-- Where nothing is to be taken, nothing is. -/
theorem nextSlot_of_none {ep : Ep} {a : UInt64} {slots : UInt32}
    (h : ∀ p, rdsPeerFind ep a = some p → p.nextSlot slots = none) :
    (ep.ringBook.peer a).nextSlot slots = none := by
  show ((rdsPeerFind ep a).getD _).nextSlot slots = none
  cases hp : rdsPeerFind ep a with
  | none =>
    -- a blank record asks for the first stamp, and its ring is cleared
    show (if (0 : UInt32) = ((0 : UInt64) / slots.toUInt64).toUInt32 + 1 then _ else _) = none
    rw [UInt64.zero_div]
    rfl
  | some p => exact h p hp

/-- **A poll.** -/
theorem Inv.own_poll {s : Bool} (env : Env) (addr : UInt64)
    (htruth : c.Truthful s ((l.ep s).ringInputDue (.poll env addr))) :
    (l.act c (.own s (.poll env addr))).Inv c := by
  have hgeom : (l.ep s).cfg.geom = c.geom s := by rw [h.config]
  have hears (p : Peer) (slot : RingSlot) (op : UInt8) (i : RingInfo)
      (hp : rdsPeerFind (l.ep s) addr = some p)
      (hnext : p.nextSlot (l.ep s).cfg.geom.slots = some slot)
      (hctrl : slot.ctrl? = some (op, i)) :
      ((l.ep s).ringInputDue (.poll env addr)).hears addr op i := ⟨rfl, p, slot, hp, hnext, hctrl⟩
  obtain ⟨hnone, hempty⟩ | ⟨ep', p, q, slot, b, hsome, hcfg, hp, hnext, hquiets, hq, hqaddr,
    hnext', hcalms⟩ := Ep.ringPollSlot_stages env addr hears
  · have hact : (l.ep s).act (.poll env addr) = l.ep s := by
      show (rdsRingPollSlot env (l.ep s) addr).getD _ = _
      rw [hnone]
      rfl
    have htakes : l.takes c s (.poll env addr) = [] := by
      rw [hgeom] at hempty
      show (if addr = c.addr s then _ else _) = []
      split
      · rename_i haddr
        show (((l.ep s).ringBook.peer (c.addr s)).nextSlot (c.geom s).slots).toList = []
        rw [nextSlot_of_none (haddr ▸ hempty)]
        rfl
      · rfl
    refine h.own_of (by rw [hact]) (by rw [hact]; exact h.keeps s) ?_
    rw [hact, htakes, List.append_nil]
    exact .refl
  · have hact : (l.ep s).act (.poll env addr) = ep' := by
      show (rdsRingPollSlot env (l.ep s) addr).getD _ = _
      rw [hsome]
      rfl
    rw [h.config] at hquiets hcalms
    have hpaddr := rdsPeerFind_addr hp
    have hp' : (l.ep s).ringBook.table p.addr = some p := by rw [hpaddr]; exact hp
    have hq' : b.table q.addr = some q := by rw [hqaddr]; exact hq
    -- the books on the way keep one ring for the other endpoint
    have habsorb : RingBook.Rule (c.cfg s) ((l.ep s).ringInputDue (.poll env addr))
        (l.ep s).ringBook _ := .absorb hp' (by rw [← h.config]; exact hnext)
    have hconsume : RingBook.Rule (c.cfg s) ((l.ep s).ringInputDue (.poll env addr)) b _ :=
      .consume hq' (by rw [← h.config]; exact hnext')
    have hknown : c.Known s ((l.ep s).ringInputDue (.poll env addr)) := h.known nofun
    have hkeeps₁ := (h.keeps s).rule hknown habsorb
    have hkeeps₂ := hkeeps₁.rules hknown hquiets.rules
    have hkeeps₃ := hkeeps₂.rule hknown hconsume
    rw [hgeom] at hnext hnext'
    refine h.own_of (hact ▸ hcfg) (hact ▸ hkeeps₃.rules hknown hcalms.rules) ?_
    rw [hact]
    have hsteps₁ : LinkCfg.Steps (c.geom !s) (l.side c s) (c.see s b (l.side c s)) := by
      refine .trans (b := c.see s ((l.ep s).ringBook.put (p.absorbAck slot.ack)) (l.side c s)) ?_
        (LinkCfg.calms_steps hquiets.calms hkeeps₁ hknown htruth nofun nofun)
      refine LinkCfg.steps_put (b := (l.ep s).ringBook) (e := l.side c s) hp'
        (Peer.Steady.absorbAck p slot.ack).addr (fun x hg hx => ?_)
      subst hx
      exact .absorb (hg ▸ hnext)
    refine hsteps₁.trans (.trans ?_
      (LinkCfg.calms_steps hcalms hkeeps₃ hknown htruth nofun nofun))
    show LinkCfg.Steps (c.geom !s) _ (c.see s _ { l.side c s with
      taken := l.taken s ++ if addr = c.addr s then
        ((l.side c s).peer.nextSlot (c.geom s).slots).toList else [] })
    by_cases ha : addr = c.addr s
    · have hpeer : (l.side c s).peer = p :=
        LinkCfg.peer_see (b := (l.ep s).ringBook) (e := l.side c s) hp' (hpaddr.trans ha)
      have hpeer' : (c.see s b (l.side c s)).peer = q := LinkCfg.peer_see hq' (hqaddr.trans ha)
      rw [if_pos ha, hpeer, hnext, LinkCfg.see_put]
      · have hnext' : (c.see s b (l.side c s)).peer.nextSlot (c.geom s).slots = some slot := by
          rw [hpeer']
          exact hnext'
        have htake := RingEnd.Step.take (g := c.geom !s) hnext'
        rw [hpeer'] at htake
        exact .single htake
      · exact hqaddr.trans ha
    · rw [if_neg ha, List.append_nil, LinkCfg.see_put_of_ne]
      · exact .refl
      · exact fun h => ha (hqaddr.symm.trans h)

/-- **A slot lands.** -/
theorem Inv.land {s : Bool} (hadmits : l.Admits c (.land s)) : (l.act c (.land s)).Inv c := by
  obtain ⟨hfetched, hpeer⟩ := hadmits
  obtain ⟨slot, hslot⟩ := Option.isSome_iff_exists.mp hfetched
  have hmsg := (h.linked s).1.ring.read _ slot le_rfl hslot
  have hlt : l.landed s < (l.side c s).posted.length := by
    obtain ⟨hlt, -⟩ := List.getElem?_eq_some_iff.mp hmsg
    simpa [RingEnd.ring, RingEnd.accepted, side] using hlt
  have hw := List.getElem?_eq_getElem hlt
  generalize (l.side c s).posted[l.landed s] = w at hw
  rw [act_land hw hslot]
  obtain ⟨hcfg, hcalms⟩ := (l.ep !s).act_calm
    (.landSlot (c.addr !s) (w.off.toNat / (c.geom !s).slotSize.toNat) slot)
    (fun _ _ hpoll => by cases hpoll)
  rw [h.config] at hcalms
  have hknown : c.Known (!s) ((l.ep !s).ringInputDue
      (.landSlot (c.addr !s) (w.off.toNat / (c.geom !s).slotSize.toNat) slot)) :=
    h.known (fun addr idx slot ha _ => by cases ha; rfl)
  refine h.of_ends (s := s) rfl hcfg ((h.keeps _).rules hknown hcalms.rules) ?_
  have hnear : side c { l with
      ep := Function.update l.ep (!s) ((l.ep !s).act
        (.landSlot (c.addr !s) (w.off.toNat / (c.geom !s).slotSize.toNat) slot))
      landed := Function.update l.landed s (l.landed s + 1) } s
      = { l.side c s with landed := l.landed s + 1 } := by
    simp [side]
  have hfar : side c { l with
      ep := Function.update l.ep (!s) ((l.ep !s).act
        (.landSlot (c.addr !s) (w.off.toNat / (c.geom !s).slotSize.toNat) slot))
      landed := Function.update l.landed s (l.landed s + 1) } (!s)
      = { l.side c !s with peer := { (l.side c !s).peer with
          rxRing := Function.update (l.side c !s).peer.rxRing
            (w.off.toNat / (c.geom !s).slotSize.toNat) slot } } := by
    simp only [side, Function.update_self, Function.update_of_ne (Bool.not_ne_self s)]
    rw [Ep.act, RingBook.peer_updPeer (fun p => { p with
      rxRing := Function.update p.rxRing (w.off.toNat / (c.geom !s).slotSize.toNat) slot })
      (fun _ => rfl) hpeer]
    rfl
  rw [hnear, hfar]
  exact ⟨(h.linked s).1.land hw hslot, { (h.linked s).2 with }⟩

/-- **Credit lands.** -/
theorem Inv.landCredit {s : Bool} {n : ℕ} (hadmits : l.Admits c (.landCredit s n)) :
    (l.act c (.landCredit s n)).Inv c := by
  obtain ⟨hcredit, hpeer⟩ := hadmits
  obtain ⟨v, hv⟩ := Option.isSome_iff_exists.mp hcredit
  rw [act_landCredit hv]
  obtain ⟨hcfg, hcalms⟩ := (l.ep !s).act_calm (.landCredit (c.addr !s) v) (fun _ _ => nofun)
  rw [h.config] at hcalms
  have hknown : c.Known (!s) ((l.ep !s).ringInputDue (.landCredit (c.addr !s) v)) := h.known nofun
  refine h.of_ends (s := s) rfl hcfg ((h.keeps _).rules hknown hcalms.rules) ?_
  have hnear : side c { l with
      ep := Function.update l.ep (!s) ((l.ep !s).act (.landCredit (c.addr !s) v)) } s
      = l.side c s := by
    simp [side]
  have hfar : side c { l with
      ep := Function.update l.ep (!s) ((l.ep !s).act (.landCredit (c.addr !s) v)) } (!s)
      = { l.side c !s with peer := { (l.side c !s).peer with creditCell := v } } := by
    simp only [side, Function.update_self]
    rw [Ep.act, RingBook.peer_updPeer (fun p => { p with creditCell := v }) (fun _ => rfl) hpeer]
    rfl
  rw [hnear, hfar]
  exact ⟨{ (h.linked s).1 with cell := (h.linked s).1.credit n v hv }, { (h.linked s).2 with }⟩

/-- **Every action keeps the invariant.** -/
theorem Inv.act {a : LinkAct} (hadmits : l.Admits c a)
    (htruth : ∀ s x, a = .own s x → c.Truthful s ((l.ep s).ringInputDue x)) :
    (l.act c a).Inv c := by
  cases a with
  | own s a =>
    have htruth := htruth s a rfl
    by_cases hpoll : ∃ env addr, a = .poll env addr
    · obtain ⟨env, addr, rfl⟩ := hpoll
      exact h.own_poll env addr htruth
    · exact h.own_calm hadmits htruth (fun env addr ha => hpoll ⟨env, addr, ha⟩)
  | fetch s n =>
    have hw := List.getElem?_eq_getElem hadmits.2
    rw [act_fetch hw]
    have hsame : Function.update l.credit s (l.credit s) = l.credit := Function.update_eq_self _ _
    have hinv := h.fetched_of s _ (l.credit s) (.fetch hw)
    rwa [hsame] at hinv
  | land s => exact h.land hadmits
  | fetchCredit s n =>
    have hsame : Function.update l.fetched s (l.fetched s) = l.fetched :=
      Function.update_eq_self _ _
    have hinv := h.fetched_of s (l.fetched s) _ (.fetchCredit (n := n))
    rwa [hsame] at hinv
  | landCredit s n => exact h.landCredit hadmits

end Step

end Link
