import RdsProv.RingLink
import RdsProv.Credit

/-!
# Exactly once and in order

What the invariant of a link says about its endpoints. In every state that two endpoints
reach, under any interleaving of calls, polls and landings, each ring is a queue
(`Link.ring_is_queue`): the slots taken out of it are a prefix of those accepted for it, a
slot is polled exactly if it has landed and was not taken, and neither an unread slot nor a
staging slot that is still to be read is overwritten.

The counters of the records count these slots modulo `2 ^ 64`. Below that the order
`txTail ≤ rxHead ≤ txHead ≤ txTail + slots` holds of the words as well. Credit is compared
as words, so the order of the words is lost with the `2 ^ 64`th slot
(`Link.order_is_lost`): the consumer's counter starts again from zero while the
producer's tail stays near the end, and no credit is heard any more.
-/

/-! ## A slot is accepted -/

/-- **A `READY` peer with room takes a slot**, if the socket accepts its write. -/
theorem rdsRingSend_accepted {env : Env} (henv : env.RdmaOk) {ep : Ep} {p : Peer}
    {dest : UInt64} (payload : List UInt8) (tag data : UInt64) (context : ℕ) (flags : UInt64)
    (tagged genComp : Bool) (op : UInt8) (hring : ep.cfg.eagerRdma = true)
    (hlen : payload.length ≤ ep.cfg.geom.payload) (hp : rdsPeerFind ep dest = some p)
    (hready : p.state = .ready) (hroom : p.refreshCredit.full = false) :
    (rdsRingSend env ep payload dest tag data context flags tagged genComp op).2 = .ok := by
  have hget : rdsPeerGet env ep dest = (ep, some p) := by
    unfold rdsPeerGet
    rw [hp]
  unfold rdsRingSend
  rw [if_neg (by simp [hring]), if_neg (Nat.not_lt.mpr hlen), hget]
  dsimp only
  rw [if_pos hready]
  unfold rdsRingPlace
  dsimp only
  rw [if_neg (by simp [hroom])]
  obtain ⟨hcnt, -⟩ | ⟨e, e', hsend, -⟩ | ⟨-, hn, -⟩ | ⟨-, -, h⟩ :=
    rdsPostRdma_cases env (ep.touchPeer p)
      (p.refreshCredit.slotWrite
        (p.refreshCredit.fillSlot op (rdsHdrFlags tagged flags) tag data payload))
  · exact absurd hcnt (show ¬ (1 = 0 ∨ rdsIovLimit < 1) by decide)
  · rw [henv] at hsend
    cases hsend
  · cases hn
  · rw [h]

/-- **Credit that is owed is posted**, if the socket accepts its write. -/
theorem rdsRingFlushCredit_posts {env : Env} (henv : env.RdmaOk) {ep : Ep} {addr : UInt64}
    {q : Peer} (hq : rdsPeerFind ep addr = some q) (howed : q.rxHead ≠ q.rxCreditSent) :
    rdsPeerFind (rdsRingFlushCredit env ep addr) addr
        = some { q with creditTx := q.rxHead, rxCreditSent := q.rxHead }
      ∧ (rdsRingFlushCredit env ep addr).writes
        = ep.writes ++ [({ q with creditTx := q.rxHead } : Peer).creditWrite] := by
  have hflush : rdsRingFlushCredit env ep addr = rdsRingReturnCredit env ep q := by
    unfold rdsRingFlushCredit
    rw [hq]
    exact if_pos howed
  have haddr : q.addr = addr := rdsPeerFind_addr hq
  rw [← haddr] at hq hflush ⊢
  obtain ⟨⟨e, hrefused⟩, -⟩ | ⟨-, hreturn⟩ := rdsRingReturnCredit_cases env ep q
  · rw [henv] at hrefused
    cases hrefused
  · rw [hflush, hreturn]
    exact ⟨rdsPeerFind_setPeer_self
      (q := { q with creditTx := q.rxHead, rxCreditSent := q.rxHead }) hq, rfl⟩

/-! ## The queue -/

/-- **The ring from `a` to `b` is a queue.** -/
structure RingEnd.Fifo (a b : RingEnd) : Prop where
  /-- What is delivered is a prefix of what was accepted. -/
  delivered : b.taken <+: a.accepted
  tail_le : a.peer.txTail.toNat ≤ b.taken.length
  taken_le : b.taken.length ≤ a.accepted.length
  accepted_le : a.accepted.length ≤ a.peer.txTail.toNat + b.geom.slots.toNat
  rxHead : b.peer.rxHead = UInt64.ofNat b.taken.length
  txHead : a.peer.txHead = UInt64.ofNat a.accepted.length
  /-- The order of the counters as words, until they wrap. -/
  words : a.accepted.length < 2 ^ 64 → a.peer.txTail ≤ b.peer.rxHead
    ∧ b.peer.rxHead ≤ a.peer.txHead
    ∧ a.peer.txHead.toNat ≤ a.peer.txTail.toNat + b.geom.slots.toNat
  /-- No slot that has landed and was not taken is overwritten. -/
  unread : ∀ n slot, b.taken.length ≤ n → n < a.landed → a.accepted[n]? = some slot →
    b.peer.rxRing (n % b.geom.slots.toNat) = slot
  /-- No staging slot whose write has not landed is overwritten. -/
  staged : ∀ n slot, a.landed ≤ n → a.accepted[n]? = some slot →
    a.peer.txStage (n % b.geom.slots.toNat) = slot
  /-- A slot is polled exactly if it has landed and was not taken, whatever the stamps left
  from earlier laps. -/
  polled : ∀ slot, b.peer.nextSlot b.geom.slots = some slot
    ↔ b.taken.length < a.landed ∧ a.accepted[b.taken.length]? = some slot

theorem RingEnd.Linked.fifo {a b : RingEnd} (h : a.Linked b) : a.Fifo b := by
  obtain ⟨hab, hba⟩ := h
  have htail : a.peer.txTail.toNat ≤ b.taken.length := hab.ring.tail_le
  have htaken : b.taken.length ≤ a.accepted.length := hab.ring.taken_le.trans hab.ring.landed_le
  have hlap : a.accepted.length ≤ a.peer.txTail.toNat + b.geom.slots.toNat := hab.ring.sent_le
  refine ⟨hab.ring.taken_prefix, htail, htaken, hlap, hba.rxHead, hab.txHead, fun hwrap => ?_,
    fun n slot => hab.ring.cells_untaken, hab.ring.staged, fun slot => hba.nextSlot_iff hab slot⟩
  have hhead : a.peer.txHead.toNat = a.accepted.length := by
    rw [hab.txHead, UInt64.toNat_ofNat', Nat.mod_eq_of_lt hwrap]
  have hread : b.peer.rxHead.toNat = b.taken.length := by
    rw [hba.rxHead, UInt64.toNat_ofNat', Nat.mod_eq_of_lt (htaken.trans_lt hwrap)]
  rw [UInt64.le_iff_toNat_le, UInt64.le_iff_toNat_le, hhead, hread]
  exact ⟨htail, htaken, hlap⟩

namespace Link

variable {c : LinkCfg}

theorem Runs.inv (hgeom : ∀ s, c.geom s = c.geom !s) {domain : Bool → Domain}
    {acts : List LinkAct} (h : Runs c domain acts) : (after c domain acts).Inv c :=
  Along.invariant (fun _ _ hinv hok => hinv.act hok (fun s _ _ => .of_geom (hgeom s)))
    (.init c domain) h

/-- **The ring is an exactly-once queue**, in both directions and in every state two
endpoints of one geometry reach. -/
theorem ring_is_queue (c : LinkCfg) (hgeom : ∀ s, c.geom s = c.geom !s)
    (domain : Bool → Domain) (acts : List LinkAct) (hrun : Runs c domain acts) (s : Bool) :
    ((after c domain acts).side c s).Fifo ((after c domain acts).side c !s) :=
  ((hrun.inv hgeom).linked s).fifo

/-! ## Until the counters wrap -/

/-- Two endpoints at the defaults, with the ring on. -/
def twoEnds : LinkCfg where
  cfg s := EpCfg.standard true [10, 20] (if s then 20 else 10)
  fits _ := show 2 < 2 ^ 64 by decide

/-- The domains they are opened in. -/
def twoDomains (_ : Bool) : Domain := .opened true (some 3) 1024 268435456

/-- They shake hands. -/
def shakeHands : List LinkAct :=
  let env := Env.calm numberCookies
  let info : RingInfo := ⟨1, 2, 16, 1024⟩
  [.own false (.send env [⟨4096, 8⟩] 1 0 0 7 0 false),
    .own true (.recv env 10 ((ctrlHdr rdsOpRingReq).encode ++ info.encode)),
    .own false (.recv env 20 ((ctrlHdr rdsOpRingAck).encode ++ info.encode))]

/-- The first endpoint sends an empty message, which lands. -/
def sendOne (k : ℕ) : List LinkAct :=
  [.own false (.inject (Env.calm numberCookies) 4096 0 1 0 false), .fetch false k, .land false]

/-- The second polls. -/
def pollOne : LinkAct := .own true (.poll (Env.calm numberCookies) 0)

/-- Its credit goes back. -/
def repayOne (k : ℕ) : List LinkAct :=
  [.own true (.flush (Env.calm numberCookies) 0), .fetchCredit true k, .landCredit true k]

/-- **In step**: `n` messages were sent and have landed, `m` of them were taken, and credit
for `k` is back. -/
structure InStep (n m k : ℕ) (l : Link) : Prop where
  inv : l.Inv twoEnds
  near : ∃ p, rdsPeerFind (l.ep false) 1 = some p ∧ p.state = .ready ∧ p.creditCell = UInt64.ofNat k
  far : ∃ q, rdsPeerFind (l.ep true) 0 = some q ∧ q.rxCreditSent = UInt64.ofNat k
  accepted : (l.side twoEnds false).accepted.length = n
  landed : l.landed false = n
  taken : (l.taken true).length = m
  credits : ((l.ep true).writes.filter (RdmaOp.creditTo 10)).length = k

/-- They are in step once they have shaken hands. -/
theorem inStep_zero : InStep 0 0 0 (after twoEnds twoDomains shakeHands) where
  inv := Runs.inv (fun _ => rfl) (by decide +kernel)
  near := by
    have h : (rdsPeerFind ((after twoEnds twoDomains shakeHands).ep false) 1).map
        (fun p => (p.state, p.creditCell)) = some (.ready, 0) := by decide +kernel
    obtain ⟨p, hp, heq⟩ := Option.map_eq_some_iff.mp h
    exact ⟨p, hp, congrArg Prod.fst heq, congrArg Prod.snd heq⟩
  far := by
    have h : (rdsPeerFind ((after twoEnds twoDomains shakeHands).ep true) 0).map
        (fun p => p.rxCreditSent) = some 0 := by decide +kernel
    obtain ⟨q, hq, heq⟩ := Option.map_eq_some_iff.mp h
    exact ⟨q, hq, heq⟩
  accepted := by decide +kernel
  landed := rfl
  taken := by decide +kernel
  credits := by decide +kernel

theorem calm_rdmaOk : (Env.calm numberCookies).RdmaOk := fun _ _ => rfl

/-- The record of the second endpoint at the first. -/
theorem peer_near {l : Link} {p : Peer} (hp : rdsPeerFind (l.ep false) 1 = some p) :
    (l.side twoEnds false).peer = p := by
  show (rdsPeerFind (l.ep false) 1).getD _ = p
  rw [hp]
  rfl

/-- The record of the first endpoint at the second. -/
theorem peer_far {l : Link} {q : Peer} (hq : rdsPeerFind (l.ep true) 0 = some q) :
    (l.side twoEnds true).peer = q := by
  show (rdsPeerFind (l.ep true) 0).getD _ = q
  rw [hq]
  rfl

/-- There is room while the credit is back and no counter has wrapped. -/
theorem InStep.room {k : ℕ} {l : Link} (h : InStep k k k l) (hwrap : k < 2 ^ 64)
    {p : Peer} (hp : rdsPeerFind (l.ep false) 1 = some p) (hready : p.state = .ready)
    (hcell : p.creditCell = UInt64.ofNat k) : p.refreshCredit.full = false := by
  have hpeer := peer_near hp
  have hsound := (h.inv.linked false).1
  obtain ⟨t, ht, hmax⟩ := p.absorbAck_eq p.creditCell
  have htail : p.txTail.toNat ≤ k := by
    rw [← hpeer, ← h.taken]
    exact hsound.ring.tail_le
  have hcell : p.creditCell.toNat = k := by
    rw [hcell, UInt64.toNat_ofNat', Nat.mod_eq_of_lt hwrap]
  have hhead : p.txHead = t := by
    have hhead := hsound.txHead
    rw [hpeer, h.accepted] at hhead
    rw [hhead, ← UInt64.toNat_inj, UInt64.toNat_ofNat', Nat.mod_eq_of_lt hwrap, hmax, hcell,
      max_eq_right htail]
  have hslots := (hsound.fits (hpeer ▸ hready)).1
  rw [hpeer] at hslots
  rw [show p.refreshCredit = p.absorbAck p.creditCell from rfl, ht]
  show decide (p.remSlots.toUInt64 ≤ p.txHead - t) = false
  rw [hslots, hhead, UInt64.sub_self]
  rfl

/-- A message is sent. -/
theorem InStep.inject {k : ℕ} {l : Link} (h : InStep k k k l) (hwrap : k < 2 ^ 64) :
    let l' := l.act twoEnds (.own false (.inject (Env.calm numberCookies) 4096 0 1 0 false))
    l'.Inv twoEnds ∧ l'.ep true = l.ep true
      ∧ (l'.side twoEnds false).accepted.length = k + 1
      ∧ ∃ p, rdsPeerFind (l'.ep false) 1 = some p ∧ p.state = .ready
        ∧ p.creditCell = UInt64.ofNat k := by
  intro l'
  have hinv : l'.Inv twoEnds := h.inv.act ⟨trivial, trivial⟩ (fun _ _ _ => .of_geom rfl)
  obtain ⟨p, hp, hready, hcell⟩ := h.near
  have hcfg : (l.ep false).cfg = EpCfg.standard true [10, 20] 10 := h.inv.config false
  rcases hsend : rdsRingSend (Env.calm numberCookies) (l.ep false)
      (ofiCopyFromIov (Env.calm numberCookies).mem 0 [⟨4096, 0⟩] 0) 1 0 0 0 0 false false
      rdsOpEager with ⟨ep', ret⟩
  have hok : ret = .ok := by
    have hsent := rdsRingSend_accepted calm_rdmaOk [] 0 0 0 0 false false rdsOpEager
      (by rw [hcfg]; rfl) (Nat.zero_le _) hp hready (h.room hwrap hp hready hcell)
    exact (congrArg Prod.snd hsend).symm.trans hsent
  subst hok
  have hact : (l.ep false).act (.inject (Env.calm numberCookies) 4096 0 1 0 false) = ep' := by
    have hinject : rdsGenericInject (Env.calm numberCookies) (l.ep false) 4096 0 1 0 false
        = (ep', .ok) := by
      unfold rdsGenericInject
      rw [if_neg (Nat.not_lt_zero _), show rdsAvAddr (l.ep false).cfg 1 = some 20 by rw [hcfg]; rfl]
      have hring : (l.ep false).cfg.eagerRdma = true ∧ 0 ≤ (l.ep false).cfg.geom.payload :=
        ⟨by rw [hcfg]; rfl, Nat.zero_le _⟩
      simp only [if_pos hring, hsend]
      rfl
    exact congrArg Prod.fst hinject
  have hep : l'.ep = Function.update l.ep false ep' := congrArg (Function.update l.ep false) hact
  obtain ⟨hfail, -⟩ | ⟨-, -, e, q, flags, tag, data, hquiet, hq, hqaddr, hqready, -, -, -, hbook⟩ :=
    rdsRingSend_ring _ _ _ _ _ _ _ _ _ _ _ (fun _ => RingInput.any_expires _) hsend
  · exact absurd rfl hfail
  have hq : e.ringBook.table 1 = some q := hqaddr ▸ hq
  obtain ⟨q', hq', hsteady⟩ := hquiet.book.steady hp
  cases hq.symm.trans hq'
  have hsa : q.sa = 20 := by
    have hlists := ((h.inv.keeps false).key 1 p hp).2
    rw [hsteady.sa]
    exact Option.some.inj (hlists.symm.trans rfl)
  generalize q.fillSlot rdsOpEager flags tag data _ = slot at hbook
  have hwrites : ep'.writes = (l.ep false).writes ++ [q.slotWrite slot] := by
    have hsame : e.writes = (l.ep false).writes := by rw [hquiet.eq]
    rw [← hsame]
    exact congrArg RingBook.writes hbook
  refine ⟨hinv, by rw [hep]; rfl, ?_, q.advance slot, ?_, hqready, hsteady.creditCell.trans hcell⟩
  · have hposted : (l'.side twoEnds false).posted = (l.side twoEnds false).posted
        ++ [⟨q.txIdx, (q.slotWrite slot).remoteOff, slot⟩] := by
      show (l'.ep false).writes.filterMap (RdmaOp.slotTo 20) = _
      rw [hep, Function.update_self, hwrites, List.filterMap_append,
        List.filterMap_cons_some ((RdmaOp.slotTo_slotWrite q slot 20).trans (if_pos hsa))]
      rfl
    rw [← h.accepted, RingEnd.accepted, hposted, List.map_append, List.length_append]
    rfl
  · rw [hep]
    show ep'.ringBook.table 1 = _
    rw [hbook]
    show Function.update e.ringBook.table q.addr _ 1 = _
    rw [hqaddr, Function.update_self]

/-- The one write that is out lands. -/
theorem land_one {k : ℕ} {l : Link} (hinv : l.Inv twoEnds) (hlanded : l.landed false = k)
    (haccepted : (l.side twoEnds false).accepted.length = k + 1)
    (hfar : (rdsPeerFind (l.ep true) 0).isSome) :
    Along (Link.act twoEnds) (Link.Admits twoEnds) l [.fetch false k, .land false]
      ∧ ∃ idx slot l', [.fetch false k, .land false].foldl (Link.act twoEnds) l = l'
        ∧ l'.Inv twoEnds
        ∧ l'.ep = Function.update l.ep true ((l.ep true).act (.landSlot 0 idx slot))
        ∧ l'.landed false = k + 1 ∧ l'.taken = l.taken := by
  have hlt : k < (l.side twoEnds false).posted.length := by
    rw [RingEnd.accepted, List.length_map] at haccepted
    omega
  have hw := List.getElem?_eq_getElem hlt
  generalize (l.side twoEnds false).posted[k] = w at hw
  have hfetch : l.Admits twoEnds (.fetch false k) := ⟨hlanded.le, hlt⟩
  have hinv₂ := hinv.act hfetch (fun _ _ _ => .of_geom rfl)
  have hl₂ := act_fetch hw
  show (_ ∧ Along _ _ (l.act twoEnds (.fetch false k)) _)
    ∧ ∃ idx slot l', (l.act twoEnds (.fetch false k)).act twoEnds (.land false) = l' ∧ _
  generalize l.act twoEnds (.fetch false k) = l₂ at hinv₂ hl₂ ⊢
  have hep : l₂.ep = l.ep := by rw [hl₂]
  have hlanded₂ : l₂.landed false = k := by rw [hl₂, ← hlanded]
  have hread : l₂.fetched false (l₂.landed false)
      = some ((l.side twoEnds false).peer.txStage w.idx) := by
    rw [hlanded₂, hl₂]
    dsimp only
    rw [Function.update_self, Function.update_self]
  have hposted : (l₂.side twoEnds false).posted[l₂.landed false]? = some w := by
    rw [hlanded₂, hl₂]
    exact hw
  have hland : l₂.Admits twoEnds (.land false) := by
    refine ⟨by rw [hread]; rfl, ?_⟩
    rw [hep]
    exact hfar
  refine ⟨⟨hfetch, hland, trivial⟩, w.off.toNat / (twoEnds.geom true).slotSize.toNat,
    (l.side twoEnds false).peer.txStage w.idx, _, act_land hposted hread, ?_, ?_, ?_, ?_⟩
  · rw [← act_land hposted hread]
    exact hinv₂.act hland (fun _ _ _ => .of_geom rfl)
  · show Function.update l₂.ep true ((l₂.ep true).act _) = _
    rw [hep]
    rfl
  · show Function.update l₂.landed false (l₂.landed false + 1) false = k + 1
    rw [Function.update_self, hlanded₂]
  · rw [hl₂]

/-- **A message is sent and lands.** -/
theorem InStep.send {k : ℕ} {l : Link} (h : InStep k k k l) (hwrap : k < 2 ^ 64) :
    Along (Link.act twoEnds) (Link.Admits twoEnds) l (sendOne k)
      ∧ InStep (k + 1) k k ((sendOne k).foldl (Link.act twoEnds) l) := by
  obtain ⟨hinv, hfar, haccepted, p, hp, hready, hcell⟩ := h.inject hwrap
  obtain ⟨q, hq, hsent⟩ := h.far
  set inject : LinkAct := .own false (.inject (Env.calm numberCookies) 4096 0 1 0 false)
  have hlanded : (l.act twoEnds inject).landed false = k := h.landed
  have htaken : (l.act twoEnds inject).taken true = l.taken true := rfl
  show (_ ∧ Along _ _ (l.act twoEnds inject) _)
    ∧ InStep _ _ _ (List.foldl _ (l.act twoEnds inject) _)
  generalize l.act twoEnds inject = l₁ at *
  obtain ⟨halong, idx, slot, l', hl', hinv', hep', hlanded', htaken'⟩ :=
    land_one hinv hlanded haccepted (by rw [hfar, hq]; rfl)
  rw [hl']
  have hnear' : l'.ep false = l₁.ep false := by rw [hep']; rfl
  have hfar' : l'.ep true = (l.ep true).act (.landSlot 0 idx slot) := by
    rw [hep', Function.update_self, hfar]
  refine ⟨⟨⟨trivial, trivial⟩, halong⟩, hinv', ⟨p, by rw [hnear']; exact hp, hready, hcell⟩,
    ⟨{ q with rxRing := Function.update q.rxRing idx slot }, ?_, hsent⟩, ?_, hlanded', ?_, ?_⟩
  · rw [hfar']
    exact rdsPeerFind_updPeer_self
      (fun q => { q with rxRing := Function.update q.rxRing idx slot }) (fun _ => rfl) hq
  · rw [← haccepted]
    unfold RingEnd.accepted side
    rw [hnear']
  · rw [htaken', htaken, h.taken]
  · rw [hfar', ← h.credits]
    rfl

/-- **The message is taken.** No credit is due yet. -/
theorem InStep.take {k : ℕ} {l : Link} (h : InStep (k + 1) k k l) :
    InStep (k + 1) (k + 1) k (l.act twoEnds pollOne) := by
  obtain ⟨q, hq, hsent⟩ := h.far
  have hpeer := peer_far hq
  have hcfg : (l.ep true).cfg = EpCfg.standard true [10, 20] 20 := h.inv.config true
  obtain ⟨hback, hforth⟩ := h.inv.linked true
  have hhead : q.rxHead = UInt64.ofNat k := by
    rw [← hpeer, hback.rxHead]
    exact congrArg _ h.taken
  -- the next slot has landed
  obtain ⟨slot, hnext⟩ : ∃ slot, q.nextSlot (twoEnds.geom true).slots = some slot := by
    have hlt : (l.taken true).length < (l.side twoEnds false).accepted.length := by
      rw [h.taken, h.accepted]
      exact Nat.lt_succ_self k
    have hlanded : (l.taken true).length < l.landed false := by
      rw [h.taken, h.landed]
      exact Nat.lt_succ_self k
    refine ⟨(l.side twoEnds false).accepted[(l.taken true).length], ?_⟩
    rw [← hpeer]
    exact (hback.nextSlot_iff hforth _).mpr ⟨hlanded, List.getElem?_eq_getElem hlt⟩
  have htakes : l.takes twoEnds true (.poll (Env.calm numberCookies) 0) = [slot] := by
    show (if (0 : UInt64) = 0 then ((l.side twoEnds true).peer.nextSlot _).toList else []) = _
    rw [if_pos rfl, hpeer, hnext]
    rfl
  have hinv := h.inv.own_poll (s := true) (Env.calm numberCookies) 0 (.of_geom rfl)
  have hany : ∀ op i, slot.ctrl? = some (op, i) → (0 : UInt64) ≠ fiAddrNotavail →
      RingInput.any.hears 0 op i := fun _ _ _ _ => trivial
  obtain ⟨e, r, -, -, hquiets, hr, hsteady, hpoll⟩ := rdsRingPollSlot_ring
    (Env.calm numberCookies) hq (by rw [hcfg]; exact hnext) hany
  have hdue : ({ r with rxHead := r.rxHead + 1 } : Peer).creditDue (l.ep true).cfg.geom.slots
      = false := by
    show decide (_ ≤ r.rxHead + 1 - r.rxCreditSent) = false
    rw [hsteady.rxHead, hsteady.rxCreditSent, hhead, hsent, hcfg, UInt64.add_comm,
      UInt64.add_sub_cancel]
    decide
  have hact : (l.ep true).act (.poll (Env.calm numberCookies) 0)
      = e.setPeer { r with rxHead := r.rxHead + 1 } := by
    show (rdsRingPollSlot _ _ _).getD _ = _
    rw [hpoll, hdue]
    rfl
  have hep : (l.act twoEnds pollOne).ep true
      = e.setPeer { r with rxHead := r.rxHead + 1 } := (ep_own l true _).trans hact
  have hraddr : r.addr = 0 := rdsPeerFind_addr hr
  have hwrites : e.writes = (l.ep true).writes := hquiets.writes
  refine ⟨hinv, h.near, ⟨{ r with rxHead := r.rxHead + 1 }, ?_, hsteady.rxCreditSent.trans hsent⟩,
    h.accepted, h.landed, ?_, ?_⟩
  · rw [hep, ← hraddr]
    exact rdsPeerFind_setPeer_self (q := { r with rxHead := r.rxHead + 1 }) (hraddr ▸ hr)
  · show (l.taken true ++ l.takes twoEnds true _).length = k + 1
    rw [htakes, List.length_append, h.taken]
    rfl
  · rw [hep, ← h.credits, ← hwrites]
    rfl

/-- The last credit write lands. -/
theorem credit_one {k : ℕ} {l : Link} {q : Peer} (hinv : l.Inv twoEnds)
    (hq : rdsPeerFind (l.ep true) 0 = some q) (hnear : (rdsPeerFind (l.ep false) 1).isSome)
    (hcredits : ((l.ep true).writes.filter (RdmaOp.creditTo 10)).length = k + 1) :
    Along (Link.act twoEnds) (Link.Admits twoEnds) l [.fetchCredit true k, .landCredit true k]
      ∧ ∃ l', [.fetchCredit true k, .landCredit true k].foldl (Link.act twoEnds) l = l'
        ∧ l'.Inv twoEnds
        ∧ l'.ep = Function.update l.ep false ((l.ep false).act (.landCredit 1 q.creditTx))
        ∧ l'.landed = l.landed ∧ l'.taken = l.taken := by
  have hfetch : l.Admits twoEnds (.fetchCredit true k) := by
    show k < _
    rw [show twoEnds.far true = 10 from rfl, hcredits]
    exact Nat.lt_succ_self k
  have hread : (l.act twoEnds (.fetchCredit true k)).credit true k = some q.creditTx := by
    unfold act
    dsimp only
    rw [Function.update_self, Function.update_self, peer_far hq]
  have hland : (l.act twoEnds (.fetchCredit true k)).Admits twoEnds (.landCredit true k) :=
    ⟨by rw [hread]; rfl, hnear⟩
  refine ⟨⟨hfetch, hland, trivial⟩, _, act_landCredit hread, ?_, rfl, rfl, rfl⟩
  rw [← act_landCredit hread]
  exact (hinv.act hfetch (fun _ _ _ => .of_geom rfl)).act hland (fun _ _ _ => .of_geom rfl)

/-- **Its credit is returned and lands.** -/
theorem InStep.repay {k : ℕ} {l : Link} (h : InStep (k + 1) (k + 1) k l) :
    Along (Link.act twoEnds) (Link.Admits twoEnds) l (repayOne k)
      ∧ InStep (k + 1) (k + 1) (k + 1) ((repayOne k).foldl (Link.act twoEnds) l) := by
  obtain ⟨p, hp, hready, hcell⟩ := h.near
  obtain ⟨q, hq, hsent⟩ := h.far
  have hpeer := peer_far hq
  have hhead : q.rxHead = UInt64.ofNat (k + 1) := by
    rw [← hpeer, (h.inv.linked true).1.rxHead]
    exact congrArg _ h.taken
  have hsa : q.sa = 10 := by
    have hlists := ((h.inv.keeps true).key 0 q hq).2
    exact Option.some.inj (hlists.symm.trans rfl)
  have howed : q.rxHead ≠ q.rxCreditSent := by
    rw [hhead, hsent, UInt64.ofNat_add]
    simp
  obtain ⟨hq₁, hwrites₁⟩ := rdsRingFlushCredit_posts calm_rdmaOk hq howed
  have hep := ep_own (c := twoEnds) l true (.flush (Env.calm numberCookies) 0)
  have hinv₁ : (l.act twoEnds (.own true (.flush (Env.calm numberCookies) 0))).Inv twoEnds :=
    h.inv.act ⟨trivial, trivial⟩ (fun _ _ _ => .of_geom rfl)
  have hcredits₁ : (((l.act twoEnds (.own true (.flush (Env.calm numberCookies) 0))).ep
      true).writes.filter (RdmaOp.creditTo 10)).length = k + 1 := by
    have hcredit : RdmaOp.creditTo 10 ({ q with creditTx := q.rxHead } : Peer).creditWrite = true :=
      decide_eq_true hsa
    rw [hep]
    show ((rdsRingFlushCredit _ _ _).writes.filter _).length = _
    rw [hwrites₁, List.filter_append, List.filter_cons_of_pos hcredit, List.length_append,
      h.credits]
    rfl
  obtain ⟨halong, l', hl', hinv', hep', hlanded', htaken'⟩ := credit_one hinv₁
    (by rw [hep]; exact hq₁) (by show (rdsPeerFind (l.ep false) 1).isSome; rw [hp]; rfl) hcredits₁
  have hnear' : l'.ep false = (l.ep false).act (.landCredit 1 q.rxHead) := by
    rw [hep', Function.update_self]
    rfl
  have hfar' : l'.ep true = (l.ep true).act (.flush (Env.calm numberCookies) 0) := by
    rw [hep']
    exact hep
  show (_ ∧ Along _ _ (l.act twoEnds _) _) ∧ InStep _ _ _ (List.foldl _ (l.act twoEnds _) _)
  rw [hl']
  refine ⟨⟨⟨trivial, trivial⟩, halong⟩, hinv',
    ⟨{ p with creditCell := q.rxHead }, ?_, hready, hhead⟩,
    ⟨_, by rw [hfar']; exact hq₁, hhead⟩, ?_, ?_, ?_, ?_⟩
  · rw [hnear']
    exact rdsPeerFind_updPeer_self (fun p => { p with creditCell := q.rxHead }) (fun _ => rfl) hp
  · rw [← h.accepted]
    unfold RingEnd.accepted side
    rw [hnear']
    rfl
  · rw [hlanded']
    exact h.landed
  · rw [htaken']
    show (l.taken true ++ []).length = k + 1
    rw [List.append_nil, h.taken]
  · rw [hfar', ← hcredits₁, hep]

/-- **As many rounds as one likes**, until the counters wrap. -/
theorem inStep_rounds {k : ℕ} (hk : k < 2 ^ 64) :
    ∃ acts, Runs twoEnds twoDomains acts ∧ InStep k k k (after twoEnds twoDomains acts) := by
  induction k with
  | zero => exact ⟨shakeHands, by decide +kernel, inStep_zero⟩
  | succ k ih =>
    obtain ⟨acts, hrun, hstep⟩ := ih (Nat.lt_of_succ_lt hk)
    obtain ⟨halong₁, hstep₁⟩ := hstep.send (Nat.lt_of_succ_lt hk)
    obtain ⟨halong₃, hstep₃⟩ := hstep₁.take.repay
    refine ⟨acts ++ (sendOne k ++ (pollOne :: repayOne k)), ?_, ?_⟩
    · exact Along.append.mpr ⟨hrun, Along.append.mpr ⟨halong₁, ⟨trivial, trivial⟩, halong₃⟩⟩
    · unfold after
      rw [List.foldl_append, List.foldl_append, List.foldl_cons]
      exact hstep₃

/-- A run into the third lap of the sixteen slots: forty messages were taken, and one more has
landed. -/
theorem third_lap_is_queued : ∃ acts, Runs twoEnds twoDomains acts
    ∧ ((after twoEnds twoDomains acts).taken true).length = 40
    ∧ ((after twoEnds twoDomains acts).side twoEnds false).accepted.length = 41
    ∧ ((after twoEnds twoDomains acts).side twoEnds false).Fifo
      ((after twoEnds twoDomains acts).side twoEnds true) := by
  obtain ⟨acts, hrun, hstep⟩ := inStep_rounds (k := 40) (by decide)
  obtain ⟨halong, hstep₁⟩ := hstep.send (by decide)
  have hrun₁ : Runs twoEnds twoDomains (acts ++ sendOne 40) := Along.append.mpr ⟨hrun, halong⟩
  have hafter : after twoEnds twoDomains (acts ++ sendOne 40)
      = (sendOne 40).foldl (act twoEnds) (after twoEnds twoDomains acts) := List.foldl_append
  refine ⟨_, hrun₁, ?_, ?_, ring_is_queue twoEnds (fun _ => rfl) twoDomains _ hrun₁ false⟩
  · rw [hafter]
    exact hstep₁.taken
  · rw [hafter]
    exact hstep₁.accepted

/-- With the `2 ^ 64`th slot taken, the tail is ahead of the head. -/
theorem InStep.wrapped {n k : ℕ} {l : Link} (h : InStep n n k l) (hn : n = 2 ^ 64) :
    ¬ (l.side twoEnds false).peer.txTail ≤ (l.side twoEnds true).peer.rxHead := by
  obtain ⟨hforth, hback⟩ := h.inv.linked false
  have hhead : (l.side twoEnds true).peer.rxHead = UInt64.ofNat (l.taken true).length :=
    hback.rxHead
  have htail : (l.side twoEnds false).accepted.length
      ≤ (l.side twoEnds false).peer.txTail.toNat + 16 := hforth.ring.sent_le
  rw [h.accepted, hn] at htail
  rw [UInt64.le_iff_toNat_le, hhead, h.taken, hn, UInt64.toNat_ofNat', Nat.mod_self]
  omega

/-- **The order of the words is lost** with the `2 ^ 64`th slot: two endpoints reach a state
in which the producer's tail is greater than the consumer's head. -/
theorem order_is_lost :
    ∃ acts, Runs twoEnds twoDomains acts
      ∧ ¬ ((after twoEnds twoDomains acts).side twoEnds false).peer.txTail
        ≤ ((after twoEnds twoDomains acts).side twoEnds true).peer.rxHead := by
  obtain ⟨k, hk⟩ : ∃ k, k + 1 = 2 ^ 64 := ⟨2 ^ 64 - 1, rfl⟩
  have hlast : k < 2 ^ 64 := hk ▸ Nat.lt_add_one k
  obtain ⟨acts, hrun, hstep⟩ := inStep_rounds hlast
  obtain ⟨halong, hstep₁⟩ := hstep.send hlast
  refine ⟨acts ++ (sendOne k ++ [pollOne]), Along.append.mpr ⟨hrun, Along.append.mpr
    ⟨halong, ⟨trivial, trivial⟩, trivial⟩⟩, ?_⟩
  unfold after
  rw [List.foldl_append, List.foldl_append, List.foldl_cons, List.foldl_nil]
  exact hstep₁.take.wrapped hk

end Link
