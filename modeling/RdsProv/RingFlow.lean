import RdsProv.RingBook
import RdsProv.Lib.LapCounter
import RdsProv.Lib.StampedRing

/-!
# Two ends of a ring

Two endpoints that keep a record of each other form a link of two rings, one in each
direction. Here a link is seen record by record: an *end* is the record one side keeps of
the other, with the slot writes it has posted, what the adapter has read of them, how many
have landed, and which slots the side has taken out of its own ring.

`RingEnd.Step` lists what one end can do, in the words of the ring code; landing involves
both. `RingEnd.Sound` is the invariant of one direction. The memories are those of a
`StampedRing`, whose counters are the *numbers* of slots posted, landed and taken; the
64-bit words of the records are these numbers modulo `2 ^ 64`, but for the credit: a word
that reaches the producer as credit is, read as a number, never more than what was taken
(`RingEnd.Sound.cell`), whether it comes in a slot, in the cell, or late.
-/

/-! ## Stamps -/

/-- The stamp of the `n`th slot. -/
def slotStamp (slots : UInt32) (n : ℕ) : UInt32 := lapStamp slots (UInt64.ofNat n)

namespace RingGeom

variable (g : RingGeom)

theorem slotStamp_lap (n : ℕ) : slotStamp g.slots (n + g.slots.toNat) ≠ slotStamp g.slots n := by
  obtain ⟨k, hk⟩ := g.slots_pow2
  have hnext := (lapStamp_add_slots_ne hk (UInt64.ofNat n)).2
  have hadd : UInt64.ofNat (n + g.slots.toNat) = UInt64.ofNat n + g.slots.toUInt64 := by
    rw [UInt64.ofNat_add, ← UInt32.toNat_toUInt64, UInt64.ofNat_toNat]
  rw [← hadd] at hnext
  exact hnext

/-- A ring that was cleared holds no slot of the first lap. -/
theorem slotStamp_first {n : ℕ} (hn : n < g.slots.toNat) :
    RingSlot.zero.gen ≠ slotStamp g.slots n := by
  obtain ⟨k, hk⟩ := g.slots_pow2
  rw [slotStamp, lapStamp_ofNat hk, Nat.div_eq_of_lt hn]
  decide

theorem lapPlace_eq (n : ℕ) : lapPlace g.slots (UInt64.ofNat n) = n % g.slots.toNat := by
  obtain ⟨k, hk⟩ := g.slots_pow2
  exact lapPlace_ofNat hk n

/-- The byte offset of a place is in that place. -/
theorem place_of_off (n : ℕ) :
    (UInt64.ofNat (n % g.slots.toNat) * g.slotSize.toUInt64).toNat / g.slotSize.toNat
      = n % g.slots.toNat := by
  have hlt := (Nat.mod_lt n g.slots_pos).trans g.slots.toNat_lt
  have hsize := g.slotSize.toNat_lt
  have hmul : n % g.slots.toNat * g.slotSize.toNat < 2 ^ 32 * 2 ^ 32 := Nat.mul_lt_mul'' hlt hsize
  rw [UInt64.toNat_mul, UInt64.toNat_ofNat', UInt32.toNat_toUInt64,
    Nat.mod_eq_of_lt (a := n % g.slots.toNat) (by omega), Nat.mod_eq_of_lt (by omega)]
  exact Nat.mul_div_cancel _ (Nat.lt_of_lt_of_le (by decide) g.slotSize_min)

end RingGeom

/-! ## Ends -/

/-- A slot write: the staging slot it reads, where in the peer's ring it goes, and what was
staged when it was posted. -/
structure SlotWrite where
  idx : ℕ
  off : UInt64
  slot : RingSlot

/-- **One end of a link.** -/
structure RingEnd where
  /-- The geometry of the ring this end has registered. -/
  geom : RingGeom
  peer : Peer
  /-- The slot writes posted to the other end. -/
  posted : List SlotWrite
  /-- How many of them have landed. -/
  landed : ℕ
  /-- What the adapter has read of them. -/
  fetched : ℕ → Option RingSlot
  /-- What the adapter has read of the credit writes. -/
  credit : ℕ → Option UInt64
  /-- The slots taken out of this end's ring. -/
  taken : List RingSlot

namespace RingEnd

/-- The slots accepted for the other end. -/
def accepted (a : RingEnd) : List RingSlot := a.posted.map SlotWrite.slot

/-- The end once a slot is staged and its write posted. -/
def post (a : RingEnd) (slot : RingSlot) : RingEnd :=
  { a with
    peer := a.peer.advance slot
    posted := a.posted ++ [⟨a.peer.txIdx, (a.peer.slotWrite slot).remoteOff, slot⟩] }

/-- The ring from one end to the other. -/
def ring (a b : RingEnd) : StampedRing RingSlot where
  sent := a.accepted
  landed := a.landed
  taken := b.taken
  tail := a.peer.txTail.toNat
  stage := a.peer.txStage
  cells := b.peer.rxRing
  fetched := a.fetched

end RingEnd

/-- Two records that differ in nothing the ring's traffic depends on. -/
structure Peer.SameRing (p p' : Peer) : Prop where
  rxRing : p'.rxRing = p.rxRing
  rxHead : p'.rxHead = p.rxHead
  creditCell : p'.creditCell = p.creditCell
  txHead : p'.txHead = p.txHead
  txTail : p'.txTail = p.txTail
  txStage : p'.txStage = p.txStage
  creditTx : p'.creditTx = p.creditTx

/-- A `READY` record has the given geometry. -/
def Peer.Fits (g : RingGeom) (p : Peer) : Prop :=
  p.state = .ready → p.remSlots = g.slots ∧ p.remSlotSize = g.slotSize

/-- Absorbing credit raises the tail to it. -/
theorem Peer.absorbAck_eq (p : Peer) (v : UInt64) :
    ∃ t, p.absorbAck v = { p with txTail := t } ∧ t.toNat = max p.txTail.toNat v.toNat := by
  unfold Peer.absorbAck
  split
  · rename_i hlt
    exact ⟨v, rfl, (max_eq_right (UInt64.lt_iff_toNat_lt.mp hlt).le).symm⟩
  · rename_i hge
    exact ⟨p.txTail, rfl, (max_eq_left (UInt64.le_iff_toNat_le.mp (UInt64.not_lt.mp hge))).symm⟩

namespace RingEnd

/-- **What one end can do** to an end of geometry `g`: shake hands, read its credit cell,
stage and post slots, poll, return credit; and its adapter reads what is to be written. -/
inductive Step (g : RingGeom) : RingEnd → RingEnd → Prop
  | same {a : RingEnd} {p : Peer} (h : a.peer.SameRing p) (hfits : p.Fits g) :
      Step g a { a with peer := p }
  | refresh {a : RingEnd} : Step g a { a with peer := a.peer.refreshCredit }
  /-- A slot is staged, and its write refused. -/
  | stage {a : RingEnd} {slot : RingSlot} (hready : a.peer.state = .ready)
      (hfull : a.peer.full = false) : Step g a { a with peer := a.peer.stage slot }
  | place {a : RingEnd} {op flags : UInt8} {tag data : UInt64} {payload : List UInt8}
      (hready : a.peer.state = .ready) (hfull : a.peer.full = false) :
      Step g a (a.post (a.peer.fillSlot op flags tag data payload))
  | absorb {a : RingEnd} {slot : RingSlot} (hnext : a.peer.nextSlot a.geom.slots = some slot) :
      Step g a { a with peer := a.peer.absorbAck slot.ack }
  | take {a : RingEnd} {slot : RingSlot} (hnext : a.peer.nextSlot a.geom.slots = some slot) :
      Step g a { a with
        peer := { a.peer with rxHead := a.peer.rxHead + 1 }, taken := a.taken ++ [slot] }
  /-- Credit is returned, or its write refused. -/
  | owe {a : RingEnd} {sent : UInt64} :
      Step g a { a with peer := { a.peer with creditTx := a.peer.rxHead, rxCreditSent := sent } }
  /-- The adapter reads a staging slot. -/
  | fetch {a : RingEnd} {n : ℕ} {w : SlotWrite} (hw : a.posted[n]? = some w) :
      Step g a { a with fetched := Function.update a.fetched n (some (a.peer.txStage w.idx)) }
  /-- The adapter reads the credit word. -/
  | fetchCredit {a : RingEnd} {n : ℕ} :
      Step g a { a with credit := Function.update a.credit n (some a.peer.creditTx) }

/-- **The invariant of the direction from `a` to `b`.** -/
structure Sound (a b : RingEnd) : Prop where
  ring : (a.ring b).Inv b.geom.slots.toNat RingSlot.gen (slotStamp b.geom.slots)
  fits : a.peer.Fits b.geom
  txHead : a.peer.txHead = UInt64.ofNat a.accepted.length
  rxHead : a.peer.rxHead = UInt64.ofNat a.taken.length
  /-- A slot write reads and writes the place of its number. -/
  places : ∀ n w, a.posted[n]? = some w →
    w.idx = n % b.geom.slots.toNat
      ∧ w.off.toNat / b.geom.slotSize.toNat = n % b.geom.slots.toNat
  /-- Credit is never more than what was taken, wherever it is. -/
  acks : ∀ slot ∈ a.accepted, slot.ack.toNat ≤ a.taken.length
  creditTx : a.peer.creditTx.toNat ≤ a.taken.length
  credit : ∀ n v, a.credit n = some v → v.toNat ≤ a.taken.length
  cell : b.peer.creditCell.toNat ≤ a.taken.length

namespace Sound

variable {a b a' : RingEnd}

/-- The direction to an end depends on its ring, its credit cell and what it has taken. -/
theorem of_far (h : b.Sound a) (hgeom : a'.geom = a.geom) (hring : a'.peer.rxRing = a.peer.rxRing)
    (hcell : a'.peer.creditCell = a.peer.creditCell) (htaken : a'.taken = a.taken) :
    b.Sound a' := by
  have heq : b.ring a' = b.ring a := by
    unfold RingEnd.ring
    rw [hring, htaken]
  refine ⟨?_, hgeom ▸ h.fits, h.txHead, h.rxHead, hgeom ▸ h.places, h.acks, h.creditTx, h.credit,
    hcell ▸ h.cell⟩
  rw [heq, hgeom]
  exact h.ring

/-- **There is room** in a ring that is not full. -/
theorem room (h : a.Sound b) (hready : a.peer.state = .ready) (hfull : a.peer.full = false) :
    a.accepted.length < a.peer.txTail.toNat + b.geom.slots.toNat := by
  have hlap := h.ring.sent_le
  have htail := (h.ring.tail_le.trans h.ring.taken_le).trans h.ring.landed_le
  have hslots := b.geom.slots.toNat_lt
  have hdist : (a.peer.txHead - a.peer.txTail).toNat = a.accepted.length - a.peer.txTail.toNat := by
    have htail : a.peer.txTail.toNat ≤ a.accepted.length := htail
    have hlap : a.accepted.length ≤ a.peer.txTail.toNat + b.geom.slots.toNat := hlap
    have hword := a.peer.txTail.toNat_lt
    rw [h.txHead, UInt64.toNat_sub, UInt64.toNat_ofNat']
    omega
  have hfull : ¬ a.peer.remSlots.toUInt64 ≤ a.peer.txHead - a.peer.txTail :=
    of_decide_eq_false hfull
  rw [(h.fits hready).1, UInt64.le_iff_toNat_le, hdist, UInt32.toNat_toUInt64] at hfull
  omega

/-- The place and the stamp of the next slot to produce. -/
theorem txIdx (h : a.Sound b) (hready : a.peer.state = .ready) :
    a.peer.txIdx = a.accepted.length % b.geom.slots.toNat := by
  show lapPlace a.peer.remSlots a.peer.txHead = _
  rw [(h.fits hready).1, h.txHead, b.geom.lapPlace_eq]

theorem txGen (h : a.Sound b) (hready : a.peer.state = .ready) :
    a.peer.txGen = slotStamp b.geom.slots a.accepted.length := by
  show lapStamp a.peer.remSlots a.peer.txHead = _
  rw [(h.fits hready).1, h.txHead, slotStamp]

/-- The slot that is polled, in terms of the ring. -/
theorem nextSlot (hab : a.Sound b) (b' : RingEnd) :
    a.peer.nextSlot a.geom.slots
      = if ((b'.ring a).next a.geom.slots.toNat).gen = slotStamp a.geom.slots a.taken.length then
          some ((b'.ring a).next a.geom.slots.toNat) else none := by
  have hplace : (a.peer.rxHead % a.geom.slots.toUInt64).toNat
      = a.taken.length % a.geom.slots.toNat := by
    rw [hab.rxHead]
    exact a.geom.lapPlace_eq _
  unfold Peer.nextSlot
  dsimp only
  rw [hplace, hab.rxHead]
  rfl

/-- **A slot is polled exactly if it has landed and was not taken**, and then it is the next
one that the other end has posted. -/
theorem nextSlot_iff (hab : a.Sound b) (hba : b.Sound a) (slot : RingSlot) :
    a.peer.nextSlot a.geom.slots = some slot
      ↔ a.taken.length < b.landed ∧ b.accepted[a.taken.length]? = some slot := by
  have htakes : ((b.ring a).next a.geom.slots.toNat).gen = slotStamp a.geom.slots a.taken.length
      ↔ a.taken.length < b.landed := hba.ring.takes_iff a.geom.slotStamp_lap
  rw [hab.nextSlot b]
  by_cases hlanded : a.taken.length < b.landed
  · rw [if_pos (htakes.mpr hlanded), and_iff_right hlanded]
    have hnext : b.accepted[a.taken.length]? = _ := hba.ring.next_eq hlanded
    rw [hnext]
  · rw [if_neg (fun hstamp => hlanded (htakes.mp hstamp))]
    exact iff_of_false (by simp) (fun h => hlanded h.1)

/-! ### What an end does keeps both directions -/

/-- Credit is heard of. -/
theorem absorbAck {v : UInt64} (hab : a.Sound b) (hba : b.Sound a)
    (hv : v.toNat ≤ b.taken.length) :
    let a' : RingEnd := { a with peer := a.peer.absorbAck v }
    a'.Sound b ∧ b.Sound a' := by
  obtain ⟨t, ht, hmax⟩ := a.peer.absorbAck_eq v
  rw [ht]
  refine ⟨{ hab with ring := ?_ }, hba.of_far rfl rfl rfl rfl⟩
  have hring : RingEnd.ring { a with peer := { a.peer with txTail := t } } b
      = (a.ring b).learn v.toNat := by
    unfold RingEnd.ring StampedRing.learn
    rw [← hmax]
    rfl
  rw [hring]
  exact hab.ring.learn hv

/-- A slot is staged. -/
theorem stage (h : a.Sound b) (hready : a.peer.state = .ready) (hfull : a.peer.full = false)
    (slot : RingSlot) : RingEnd.Sound { a with peer := a.peer.stage slot } b := by
  refine { h with ring := ?_ }
  have hring : RingEnd.ring { a with peer := a.peer.stage slot } b
      = (a.ring b).write b.geom.slots.toNat slot := by
    unfold RingEnd.ring StampedRing.write Peer.stage
    rw [h.txIdx hready]
    rfl
  rw [hring]
  exact h.ring.write (h.room hready hfull)

/-- **A slot is posted.** -/
theorem post (h : a.Sound b) (hready : a.peer.state = .ready) (hfull : a.peer.full = false)
    {slot : RingSlot} (hgen : slot.gen = a.peer.txGen) (hack : slot.ack = a.peer.rxHead) :
    (a.post slot).Sound b := by
  have haccepted : (a.post slot).accepted = a.accepted ++ [slot] := List.map_append
  have hring : (a.post slot).ring b = (a.ring b).post b.geom.slots.toNat slot := by
    unfold RingEnd.ring StampedRing.post StampedRing.write
    rw [haccepted]
    show StampedRing.mk _ _ _ _ (Function.update a.peer.txStage a.peer.txIdx slot) _ _ = _
    rw [h.txIdx hready]
    rfl
  have hlen : a.posted.length = a.accepted.length := List.length_map _ |>.symm
  refine ⟨?_, h.fits, ?_, h.rxHead, ?_, ?_, h.creditTx, h.credit, h.cell⟩
  · rw [hring]
    exact h.ring.post (h.room hready hfull) (hgen.trans (h.txGen hready))
  · rw [haccepted, List.length_append, UInt64.ofNat_add]
    exact congrArg (· + 1) h.txHead
  · intro n w hw
    obtain hn | rfl | hn := Nat.lt_trichotomy n a.posted.length
    · exact h.places n w ((List.getElem?_append_left hn).symm.trans hw)
    · have hw : (a.posted ++ [_])[a.posted.length]? = some w := hw
      rw [List.getElem?_concat_length] at hw
      cases hw
      rw [hlen]
      refine ⟨h.txIdx hready, ?_⟩
      show (UInt64.ofNat a.peer.txIdx * a.peer.remSlotSize.toUInt64).toNat / _ = _
      rw [(h.fits hready).2, h.txIdx hready]
      exact b.geom.place_of_off _
    · rw [List.getElem?_eq_none (by simpa [RingEnd.post] using Nat.succ_le_of_lt hn)] at hw
      cases hw
  · rw [haccepted]
    intro x hx
    obtain hx | hx := List.mem_append.mp hx
    · exact h.acks x hx
    · rw [List.mem_singleton.mp hx, hack, h.rxHead, UInt64.toNat_ofNat']
      exact Nat.mod_le _ _

/-- **A slot is taken.** -/
theorem take {slot : RingSlot} (hab : a.Sound b) (hba : b.Sound a)
    (hnext : a.peer.nextSlot a.geom.slots = some slot) :
    let a' : RingEnd :=
      { a with peer := { a.peer with rxHead := a.peer.rxHead + 1 }, taken := a.taken ++ [slot] }
    a'.Sound b ∧ b.Sound a' := by
  intro a'
  have hlen : a'.taken.length = a.taken.length + 1 := List.length_append
  have hmore : a.taken.length ≤ a'.taken.length := by omega
  have hstamp : ((b.ring a).next a.geom.slots.toNat).gen = slotStamp a.geom.slots a.taken.length
      ∧ (b.ring a).next a.geom.slots.toNat = slot := by
    rw [hab.nextSlot b] at hnext
    split at hnext
    · rename_i hgen
      exact ⟨hgen, Option.some.inj hnext⟩
    · cases hnext
  constructor
  · refine ⟨hab.ring, hab.fits, hab.txHead, ?_, hab.places, fun x hx => (hab.acks x hx).trans hmore,
      hab.creditTx.trans hmore, fun n v hv => (hab.credit n v hv).trans hmore, hab.cell.trans hmore⟩
    rw [hlen, UInt64.ofNat_add]
    exact congrArg (· + 1) hab.rxHead
  · refine { hba with ring := ?_ }
    have hring : b.ring a' = (b.ring a).take a.geom.slots.toNat := by
      unfold StampedRing.take
      rw [hstamp.2]
      rfl
    rw [hring]
    exact hba.ring.take a.geom.slotStamp_lap hstamp.1

/-- The adapter reads a staging slot. -/
theorem fetch (h : a.Sound b) {n : ℕ} {w : SlotWrite} (hw : a.posted[n]? = some w) :
    RingEnd.Sound
      { a with fetched := Function.update a.fetched n (some (a.peer.txStage w.idx)) } b := by
  obtain ⟨hlt, -⟩ := List.getElem?_eq_some_iff.mp hw
  rw [(h.places n w hw).1]
  exact { h with ring := h.ring.fetch (by simpa [RingEnd.ring, RingEnd.accepted] using hlt) }

/-- **A slot lands** at the place its write says. -/
theorem land (h : a.Sound b) {slot : RingSlot} {w : SlotWrite} (hw : a.posted[a.landed]? = some w)
    (hslot : a.fetched a.landed = some slot) :
    RingEnd.Sound { a with landed := a.landed + 1 } { b with peer := { b.peer with
      rxRing := Function.update b.peer.rxRing (w.off.toNat / b.geom.slotSize.toNat) slot } } := by
  rw [(h.places _ w hw).2]
  exact { h with ring := h.ring.land hslot }

end Sound

/-- **What an end does keeps both directions sound.** -/
theorem Step.sound {a a' b : RingEnd} (h : Step b.geom a a') (hab : a.Sound b)
    (hba : b.Sound a) : a'.Sound b ∧ b.Sound a' := by
  cases h with
  | @same p hsame hfits =>
    refine ⟨⟨?_, hfits, hsame.txHead.trans hab.txHead, hsame.rxHead.trans hab.rxHead, hab.places,
      hab.acks, ?_, hab.credit, hab.cell⟩, hba.of_far rfl hsame.rxRing hsame.creditCell rfl⟩
    · have hring : RingEnd.ring { a with peer := p } b = a.ring b := by
        simp only [ring, accepted, hsame.txTail, hsame.txStage]
      rw [hring]
      exact hab.ring
    · exact hsame.creditTx ▸ hab.creditTx
  | refresh => exact hab.absorbAck hba hba.cell
  | stage hready hfull => exact ⟨hab.stage hready hfull _, hba.of_far rfl rfl rfl rfl⟩
  | place hready hfull => exact ⟨hab.post hready hfull rfl rfl, hba.of_far rfl rfl rfl rfl⟩
  | absorb hnext =>
    have hmem := List.mem_of_getElem? ((hab.nextSlot_iff hba _).mp hnext).2
    exact hab.absorbAck hba (hba.acks _ hmem)
  | take hnext => exact hab.take hba hnext
  | owe =>
    refine ⟨{ hab with creditTx := ?_ }, hba.of_far rfl rfl rfl rfl⟩
    rw [hab.rxHead, UInt64.toNat_ofNat']
    exact Nat.mod_le _ _
  | fetch hw => exact ⟨hab.fetch hw, hba.of_far rfl rfl rfl rfl⟩
  | @fetchCredit n =>
    refine ⟨{ hab with credit := fun m v hv => ?_ }, hba.of_far rfl rfl rfl rfl⟩
    by_cases hm : m = n
    · have hv : Function.update a.credit n (some a.peer.creditTx) m = some v := hv
      rw [hm, Function.update_self] at hv
      cases hv
      exact hab.creditTx
    · exact hab.credit m v ((Function.update_of_ne hm _ _).symm.trans hv)

end RingEnd
