import RdsProv.RingQueue
import RdsProv.Carriers

/-!
# Slots that are still landing

A slot is placed in the peer's ring by one RDMA write, and the peer polls its memory for it.
Nothing tells the peer that the write is complete: it looks at the generation word, the last
four bytes of the slot, and takes the rest to be there if that word is the one it expects.
The provider rests this on the order in which a write lands, by ascending addresses.

This module goes down to the bytes. A slot is *staged* over what the staging area held, so
its reserved bytes and the room behind a short payload are whatever was there
(`RingSlot.stage`); the peer *loads* it field by field (`RingSlot.load`), and loads what was
staged (`RingSlot.load_stage`). A write that is cut after some bytes leaves those over what
the place held before (`landing`). The cut may be inside the generation word, and as that is
stored with its low byte first, what the peer then reads is neither the old word nor the new
one.

Still no torn slot is ever taken (`polled_slot_is_whole`). If the word is the one expected
then, flow control allowing no other write to that place, all its bytes are those of the new
word, whether they have landed or were the same before; and all other bytes are in front of
them. Between the poll of that word and the reading of the rest more bytes may land, which
changes nothing of this.
-/

/-- `RDS_RING_HDR_SIZE`. -/
abbrev rdsRingHdrSize : ℕ := 32

namespace RingSlot

/-- A slot as `rds_ring_send` stages it over the bytes of an earlier one. -/
def stage (g : RingGeom) (old : List UInt8) (s : RingSlot) : List UInt8 :=
  leEncode 4 s.len.toNat ++ (leEncode 1 s.flags.toNat ++ (leEncode 1 s.op.toNat
    ++ ((old.drop 6).take 2 ++ (leEncode 8 s.tag.toNat ++ (leEncode 8 s.data.toNat
    ++ (leEncode 8 s.ack.toNat ++ (s.payload
    ++ ((old.drop (rdsRingHdrSize + s.payload.length)).take (g.payload - s.payload.length)
    ++ leEncode 4 s.gen.toNat))))))))

/-- `*rds_slot_gen`. -/
def loadGen (g : RingGeom) (bs : List UInt8) : UInt32 :=
  UInt32.ofNat (leField bs (g.slotSize.toNat - 4) 4)

/-- A slot as it is read: `rds_ring_deliver` reads `len` bytes of the payload. -/
def load (g : RingGeom) (bs : List UInt8) : RingSlot where
  len := UInt32.ofNat (leField bs 0 4)
  flags := UInt8.ofNat (leField bs 4 1)
  op := UInt8.ofNat (leField bs 5 1)
  tag := UInt64.ofNat (leField bs 8 8)
  data := UInt64.ofNat (leField bs 16 8)
  ack := UInt64.ofNat (leField bs 24 8)
  payload := ((bs.drop rdsRingHdrSize).take g.payload).take (UInt32.ofNat (leField bs 0 4)).toNat
  gen := loadGen g bs

/-- A slot that fits: its length is that of its payload, for which there is room. -/
structure Sized (g : RingGeom) (s : RingSlot) : Prop where
  len : s.len.toNat = s.payload.length
  payload : s.payload.length ≤ g.payload

variable {g : RingGeom} {old : List UInt8} {s : RingSlot}

/-- A slot is its header, its payload and its generation word. -/
theorem size_eq (g : RingGeom) : rdsRingHdrSize + g.payload + 4 = g.slotSize.toNat := by
  have hmin : 36 + 8 ≤ g.slotSize.toNat := g.slotSize_min
  show 32 + (g.slotSize.toNat - 36) + 4 = g.slotSize.toNat
  omega

theorem length_stage (hold : old.length = g.slotSize.toNat) (hs : s.Sized g) :
    (s.stage g old).length = g.slotSize.toNat := by
  have hsize : 32 + g.payload + 4 = g.slotSize.toNat := size_eq g
  have hfits := hs.payload
  have hhdr : rdsRingHdrSize = 32 := rfl
  simp only [stage, List.length_append, leEncode_length, List.length_take, List.length_drop, hold]
  omega

/-- **A slot is loaded as it was staged**, whatever bytes were there before. -/
theorem load_stage (hold : old.length = g.slotSize.toNat) (hs : s.Sized g) :
    load g (s.stage g old) = s := by
  have hsize : 32 + g.payload + 4 = g.slotSize.toNat := size_eq g
  have hfits := hs.payload
  have hhdr : rdsRingHdrSize = 32 := rfl
  have hresv : ((old.drop 6).take 2).length = 2 := by
    rw [List.length_take, List.length_drop, hold]
    omega
  have hpad : ((old.drop (rdsRingHdrSize + s.payload.length)).take
      (g.payload - s.payload.length)).length = g.payload - s.payload.length := by
    rw [List.length_take, List.length_drop, hold]
    omega
  generalize hresv' : (old.drop 6).take 2 = resv at hresv
  generalize hpad' : (old.drop (rdsRingHdrSize + s.payload.length)).take
    (g.payload - s.payload.length) = pad at hpad
  have hbytes : s.stage g old = leEncode 4 s.len.toNat ++ (leEncode 1 s.flags.toNat
      ++ (leEncode 1 s.op.toNat ++ (resv ++ (leEncode 8 s.tag.toNat ++ (leEncode 8 s.data.toNat
      ++ (leEncode 8 s.ack.toNat ++ (s.payload ++ (pad ++ leEncode 4 s.gen.toNat)))))))) := by
    rw [stage, hresv', hpad']
  have hlen : leField (s.stage g old) 0 4 = s.len.toNat :=
    leField_of_split [] _ (by rw [hbytes]; rfl) rfl s.len.toNat_lt
  have hflags : leField (s.stage g old) 4 1 = s.flags.toNat :=
    leField_of_split (leEncode 4 s.len.toNat) _ hbytes
      (by simp only [leEncode_length]) s.flags.toNat_lt
  have hop : leField (s.stage g old) 5 1 = s.op.toNat :=
    leField_of_split (leEncode 4 s.len.toNat ++ leEncode 1 s.flags.toNat) _
      (by rw [hbytes]; simp only [List.append_assoc]; rfl)
      (by simp only [List.length_append, leEncode_length]) s.op.toNat_lt
  have htag : leField (s.stage g old) 8 8 = s.tag.toNat :=
    leField_of_split (leEncode 4 s.len.toNat ++ leEncode 1 s.flags.toNat
        ++ leEncode 1 s.op.toNat ++ resv) _
      (by rw [hbytes]; simp only [List.append_assoc]; rfl)
      (by simp only [List.length_append, leEncode_length, hresv]) s.tag.toNat_lt
  have hdata : leField (s.stage g old) 16 8 = s.data.toNat :=
    leField_of_split (leEncode 4 s.len.toNat ++ leEncode 1 s.flags.toNat
        ++ leEncode 1 s.op.toNat ++ resv ++ leEncode 8 s.tag.toNat) _
      (by rw [hbytes]; simp only [List.append_assoc]; rfl)
      (by simp only [List.length_append, leEncode_length, hresv]) s.data.toNat_lt
  have hack : leField (s.stage g old) 24 8 = s.ack.toNat :=
    leField_of_split (leEncode 4 s.len.toNat ++ leEncode 1 s.flags.toNat
        ++ leEncode 1 s.op.toNat ++ resv ++ leEncode 8 s.tag.toNat ++ leEncode 8 s.data.toNat) _
      (by rw [hbytes]; simp only [List.append_assoc]; rfl)
      (by simp only [List.length_append, leEncode_length, hresv]) s.ack.toNat_lt
  have hgen : leField (s.stage g old) (g.slotSize.toNat - 4) 4 = s.gen.toNat :=
    leField_of_split (leEncode 4 s.len.toNat ++ leEncode 1 s.flags.toNat
        ++ leEncode 1 s.op.toNat ++ resv ++ leEncode 8 s.tag.toNat ++ leEncode 8 s.data.toNat
        ++ leEncode 8 s.ack.toNat ++ s.payload ++ pad) []
      (by rw [hbytes]; simp only [List.append_assoc, List.append_nil])
      (by simp only [List.length_append, leEncode_length, hresv, hpad]; omega) s.gen.toNat_lt
  have hdrop : (s.stage g old).drop rdsRingHdrSize
      = s.payload ++ (pad ++ leEncode 4 s.gen.toNat) := by
    have hhead : s.stage g old = (leEncode 4 s.len.toNat ++ leEncode 1 s.flags.toNat
        ++ leEncode 1 s.op.toNat ++ resv ++ leEncode 8 s.tag.toNat ++ leEncode 8 s.data.toNat
        ++ leEncode 8 s.ack.toNat) ++ (s.payload ++ (pad ++ leEncode 4 s.gen.toNat)) := by
      rw [hbytes]
      simp only [List.append_assoc]
    rw [hhead]
    exact List.drop_left' (by simp only [List.length_append, leEncode_length, hresv])
  have hpayload : (((s.stage g old).drop rdsRingHdrSize).take g.payload).take s.len.toNat
      = s.payload := by
    rw [hdrop, List.take_take, hs.len, Nat.min_eq_left hfits, List.take_left]
  unfold load loadGen
  rw [hlen, hflags, hop, htag, hdata, hack, hgen]
  simp only [UInt32.ofNat_toNat, UInt8.ofNat_toNat, UInt64.ofNat_toNat, hpayload]

end RingSlot

/-! ## A write that is cut -/

/-- The bytes of a place when a write to it is cut: those that have landed, over those that
were there. -/
def landing (n : ℕ) (new old : List UInt8) : List UInt8 := new.take n ++ old.drop n

/-- A place that is whole stays so while the rest of its write lands. -/
theorem landing_mono {n n' : ℕ} {new old : List UInt8} (h : landing n new old = new)
    (hn : n ≤ n') : landing n' new old = new := by
  have hrest : old.drop n = new.drop n :=
    List.append_cancel_left (h.trans (List.take_append_drop n new).symm)
  have hlater : old.drop n' = new.drop n' := by
    rw [← Nat.sub_add_cancel hn, Nat.add_comm, ← List.drop_drop, hrest, List.drop_drop]
  rw [landing, hlater, List.take_append_drop]

section Torn

variable {g : RingGeom} {new old : List UInt8} (hnew : new.length = g.slotSize.toNat)
  (hold : old.length = g.slotSize.toNat)

include hnew hold

/-- As long as no byte of the generation word has landed, it is the old one. -/
theorem loadGen_landing_of_le {n : ℕ} (hn : n ≤ g.slotSize.toNat - 4) :
    RingSlot.loadGen g (landing n new old) = RingSlot.loadGen g old := by
  have hlen : (new.take n).length = n := by
    rw [List.length_take, hnew]
    omega
  have hdrop : (landing n new old).drop (g.slotSize.toNat - 4)
      = old.drop (g.slotSize.toNat - 4) := by
    rw [landing, List.drop_append, hlen, List.drop_eq_nil_of_le (hlen.le.trans hn),
      List.nil_append, List.drop_drop]
    congr 1
    omega
  rw [RingSlot.loadGen, RingSlot.loadGen, leField, leField, hdrop]

/-- **A cut slot whose generation word is the new one, and not the old one, is whole.** -/
theorem landing_eq_of_loadGen {n : ℕ}
    (hgen : RingSlot.loadGen g (landing n new old) = RingSlot.loadGen g new)
    (hne : RingSlot.loadGen g old ≠ RingSlot.loadGen g new) : landing n new old = new := by
  have hsize : 32 + g.payload + 4 = g.slotSize.toNat := RingSlot.size_eq g
  have hlen : (landing n new old).length = new.length := by
    rw [landing, List.length_append, List.length_take, List.length_drop, hnew, hold]
    omega
  -- the cut is in or after the generation word
  have hn : g.slotSize.toNat - 4 < n := by
    by_contra hle
    exact hne ((loadGen_landing_of_le hnew hold (Nat.not_lt.mp hle)).symm.trans hgen)
  have hfront : (landing n new old).take (g.slotSize.toNat - 4)
      = new.take (g.slotSize.toNat - 4) := by
    rw [landing, List.take_append_of_le_length, List.take_take, Nat.min_eq_left hn.le]
    rw [List.length_take, hnew]
    omega
  -- so its four bytes, equal as a number, are equal
  have hword (bs : List UInt8) (hbs : bs.length = new.length) :
      (bs.drop (g.slotSize.toNat - 4)).length = 4 := by
    rw [List.length_drop, hbs, hnew]
    omega
  have hnat (bs : List UInt8) (hbs : bs.length = new.length) :
      (RingSlot.loadGen g bs).toNat = leDecode (bs.drop (g.slotSize.toNat - 4)) := by
    have htake : (bs.drop (g.slotSize.toNat - 4)).take 4 = bs.drop (g.slotSize.toNat - 4) :=
      List.take_of_length_le (hword bs hbs).le
    rw [RingSlot.loadGen, leField, htake, UInt32.toNat_ofNat']
    refine Nat.mod_eq_of_lt ?_
    have hbound := leDecode_lt (bs.drop (g.slotSize.toNat - 4))
    rwa [hword bs hbs] at hbound
  have hback : (landing n new old).drop (g.slotSize.toNat - 4)
      = new.drop (g.slotSize.toNat - 4) := by
    refine leDecode_inj (by rw [hword _ hlen, hword _ rfl]) ?_
    rw [← hnat _ hlen, ← hnat _ rfl, hgen]
  rw [← List.take_append_drop (g.slotSize.toNat - 4) (landing n new old), hfront, hback,
    List.take_append_drop]

end Torn

/-! ## What is posted fits -/

/-- The slots an endpoint has posted fit its geometry. -/
def Ep.PostsSized (ep : Ep) : Prop :=
  ∀ w ∈ ep.writes, ∀ sa x, w.slotTo sa = some x → x.slot.Sized ep.cfg.geom

namespace Ep.PostsSized

variable {ep e : Ep}

theorem of_append (h : ep.PostsSized) (hcfg : e.cfg = ep.cfg) {l : List RdmaOp}
    (hwrites : e.writes = ep.writes ++ l)
    (hl : ∀ w ∈ l, ∀ sa x, w.slotTo sa = some x → x.slot.Sized ep.cfg.geom) : e.PostsSized := by
  unfold Ep.PostsSized
  rw [hcfg, hwrites]
  exact List.forall_mem_append.mpr ⟨h, hl⟩

/-- A send posts its payload, if it posts it, because that fits a slot. -/
theorem of_tries (h : ep.PostsSized) {env : Env} {destAddr : UInt64} {payload : List UInt8}
    {d : Dgram} (htries : ep.Tries env e destAddr payload d) : e.PostsSized := by
  obtain ⟨e₀, e₁, ret, tag, data, context, flags, tagged, genComp, op, ⟨hcfg, -, -, hwrites⟩, hring,
    hcfg₁, -, hwrites₁, -⟩ := htries
  obtain ⟨-, hquiet⟩ | ⟨-, hlen, e₂, p, flags', tag', data', hquiet, -, -, -, -, -, heq, -⟩ :=
    rdsRingSend_ring env e₀ payload destAddr tag data context flags tagged genComp op
      (fun _ => RingInput.any_expires destAddr) hring
  · refine h.of_append (l := []) (hcfg₁.trans (hquiet.cfg.trans hcfg)) ?_
      (fun w hw => (List.not_mem_nil hw).elim)
    rw [hwrites₁, List.append_nil, ← hwrites]
    exact hquiet.writes
  · have hcfg₂ : e₁.cfg = e₂.cfg := (congrArg Ep.cfg heq :)
    have hwrites₂ : e₁.writes
        = e₂.writes ++ [p.slotWrite (p.fillSlot op flags' tag' data' payload)] :=
      (congrArg Ep.writes heq :)
    refine h.of_append (l := [p.slotWrite (p.fillSlot op flags' tag' data' payload)])
      (hcfg₁.trans (hcfg₂.trans (hquiet.cfg.trans hcfg))) ?_ (fun w hw sa x hx => ?_)
    · rw [hwrites₁, hwrites₂, hquiet.writes, hwrites]
    · rw [List.mem_singleton.mp hw, RdmaOp.slotTo_slotWrite] at hx
      split at hx
      · rw [← Option.some.inj hx, ← hcfg]
        exact ⟨fillSlot_len hlen op flags' tag' data', hlen⟩
      · cases hx

theorem act (h : ep.PostsSized) (a : EpAct) : (ep.act a).PostsSized := by
  have huntried {e : Ep} (hu : ep.Untried e) : e.PostsSized := by
    obtain ⟨hcfg, -, -, hwrites⟩ := hu
    exact h.of_append (l := []) hcfg (by rw [hwrites, List.append_nil])
      (fun w hw => (List.not_mem_nil hw).elim)
  cases hdest : a.dest? with
  | none =>
    obtain ⟨-, l, hl, hnone⟩ := ep.act_unsent hdest
    refine h.of_append (Ep.MatchStep.act ep a).cfg hl (fun w hw sa x hx => ?_)
    rw [hnone w hw sa] at hx
    cases hx
  | some dest =>
    cases a with
    | send env iov destAddr tag data context flags tagged =>
      obtain hu | ⟨payload, d, -, htries, -⟩ :=
        rdsGenericSend_tries env ep iov destAddr tag data context flags tagged rfl
      · exact huntried hu
      · exact h.of_tries htries
    | inject env buf len destAddr tag tagged =>
      obtain hu | ⟨payload, d, -, htries, -⟩ :=
        rdsGenericInject_tries env ep buf len destAddr tag tagged rfl
      · exact huntried hu
      · exact h.of_tries htries
    | _ => cases hdest

end Ep.PostsSized

namespace Link

variable {c : LinkCfg}

/-- Whatever happens on a link, each endpoint acts or does not. -/
theorem ep_act (l : Link) (a : LinkAct) (t : Bool) :
    (l.act c a).ep t = l.ep t ∨ ∃ x, (l.act c a).ep t = (l.ep t).act x := by
  have hupdate (u : Bool) (x : EpAct) :
      Function.update l.ep u ((l.ep u).act x) t = l.ep t
        ∨ ∃ y, Function.update l.ep u ((l.ep u).act x) t = (l.ep t).act y := by
    by_cases htu : t = u
    · rw [htu, Function.update_self]
      exact .inr ⟨x, rfl⟩
    · rw [Function.update_of_ne htu]
      exact .inl rfl
  cases a with
  | own s x => exact hupdate s x
  | fetch s n =>
    unfold Link.act
    dsimp only
    split
    · exact .inl rfl
    · exact .inl rfl
  | land s =>
    unfold Link.act
    dsimp only
    split
    · exact hupdate (!s) _
    · exact .inl rfl
  | fetchCredit s n => exact .inl rfl
  | landCredit s n =>
    unfold Link.act
    dsimp only
    split
    · exact hupdate (!s) _
    · exact .inl rfl

/-- Along a run, what an endpoint has posted fits. -/
theorem Runs.postsSized {domain : Bool → Domain} {acts : List LinkAct} (h : Runs c domain acts)
    (s : Bool) : ((after c domain acts).ep s).PostsSized := by
  have hstep : ∀ (l : Link) a, (l.ep s).PostsSized → l.Admits c a →
      ((l.act c a).ep s).PostsSized := by
    intro l a hl _
    obtain heq | ⟨x, heq⟩ := l.ep_act (c := c) a s
    · rw [heq]
      exact hl
    · rw [heq]
      exact hl.act x
  exact Along.invariant hstep (fun w hw => (List.not_mem_nil hw).elim) h

/-- So do the slots accepted for the other endpoint. -/
theorem sized_of_accepted {l : Link} {s : Bool} (hcfg : (l.ep s).cfg = c.cfg s)
    (h : (l.ep s).PostsSized) {slot : RingSlot} (hslot : slot ∈ (l.side c s).accepted) :
    slot.Sized (c.geom s) := by
  obtain ⟨x, hx, rfl⟩ := List.mem_map.mp hslot
  obtain ⟨w, hw, hto⟩ := List.mem_filterMap.mp hx
  have hsized := h w hw _ x hto
  rwa [hcfg] at hsized

end Link

/-! ## The memory of a ring -/

section Memory

variable (g : RingGeom) (writes : ℕ → List UInt8)

/-- A ring, by places, after its first `m` writes have landed whole. It is cleared before. -/
def ringAfter : ℕ → ℕ → List UInt8
  | 0, _ => List.replicate g.slotSize.toNat 0
  | m + 1, i => if i = m % g.slots.toNat then writes m else ringAfter m i

/-- The ring when of the write after those only some bytes have landed. -/
def ringLanding (m part i : ℕ) : List UInt8 :=
  if i = m % g.slots.toNat then landing part (writes m) (ringAfter g writes m i)
  else ringAfter g writes m i

variable {g writes}

/-- The writes of the last lap are there. -/
theorem ringAfter_placed {m n : ℕ} (hn : n < m) (hlap : m ≤ n + g.slots.toNat) :
    ringAfter g writes m (n % g.slots.toNat) = writes n := by
  induction m with
  | zero => cases hn
  | succ m ih =>
    rw [ringAfter]
    obtain rfl | hlt := Nat.eq_or_lt_of_le (Nat.le_of_lt_succ hn)
    · rw [if_pos rfl]
    · rw [if_neg (StampedRing.mod_ne_of_lt hlt hlap)]
      exact ih hlt (Nat.le_of_succ_le hlap)

/-- A place no write has reached is clear. -/
theorem ringAfter_blank {m k : ℕ} (hk : m ≤ k) (hslots : k < g.slots.toNat) :
    ringAfter g writes m k = List.replicate g.slotSize.toNat 0 := by
  induction m with
  | zero => rfl
  | succ m ih =>
    have hne : k ≠ m % g.slots.toNat := by
      rw [Nat.mod_eq_of_lt ((Nat.lt_of_succ_le hk).trans hslots)]
      exact (Nat.lt_of_succ_le hk).ne'
    rw [ringAfter, if_neg hne]
    exact ih (Nat.le_of_succ_le hk)

theorem ringLanding_zero (m i : ℕ) : ringLanding g writes m 0 i = ringAfter g writes m i := by
  unfold ringLanding landing
  split
  · rw [List.take_zero, List.nil_append, List.drop_zero]
  · rfl

theorem loadGen_replicate (g : RingGeom) :
    RingSlot.loadGen g (List.replicate g.slotSize.toNat 0) = 0 := by
  rw [RingSlot.loadGen, leField, List.drop_replicate, List.take_replicate, leDecode_replicate]
  rfl

end Memory

/-- `rds_ring_poll_peer` at the bytes: the slot it finds, if the generation word is the one
expected. The rest is read after that word, when more may have landed. -/
def Peer.pollBytes (g : RingGeom) (mem later : ℕ → List UInt8) (p : Peer) : Option RingSlot :=
  let idx := (p.rxHead % g.slots.toUInt64).toNat
  let want := (p.rxHead / g.slots.toUInt64).toUInt32 + 1
  if RingSlot.loadGen g (mem idx) = want then some (RingSlot.load g (later idx)) else none

/-- How far a ring has come: the number of writes that have landed, and of bytes of the next
one. Writes land in the order they were posted. -/
structure RingEnd.Reached (a : RingEnd) (m part : ℕ) : Prop where
  le : m ≤ a.accepted.length
  posted : part ≠ 0 → m < a.accepted.length

section Polled

variable {a b : RingEnd} {writes : ℕ → List UInt8} {m m' part part' : ℕ}
  (hab : a.Sound b) (hba : b.Sound a)
  (hwrites : ∀ n slot, a.accepted[n]? = some slot →
    (writes n).length = b.geom.slotSize.toNat ∧ RingSlot.load b.geom (writes n) = slot)

section

include hab

/-- Credit keeps the write that is landing away from what was not taken. -/
theorem ringLanding_untaken (hreach : a.Reached m part) (hlanded : b.taken.length < m) :
    ringLanding b.geom writes m part (b.taken.length % b.geom.slots.toNat)
      = writes b.taken.length := by
  have hsent := hreach.le
  have hcredit : a.accepted.length ≤ a.peer.txTail.toNat + b.geom.slots.toNat := hab.ring.sent_le
  have htail : a.peer.txTail.toNat ≤ b.taken.length := hab.ring.tail_le
  have hplaced : ringAfter b.geom writes m (b.taken.length % b.geom.slots.toNat)
      = writes b.taken.length := ringAfter_placed hlanded (by omega)
  by_cases hzero : part = 0
  · rw [hzero, ringLanding_zero, hplaced]
  · have hlt := hreach.posted hzero
    rw [ringLanding, if_neg (StampedRing.mod_ne_of_lt hlanded (by omega)), hplaced]

include hwrites

/-- The generation word that was posted. -/
theorem loadGen_writes {n : ℕ} {slot : RingSlot} (hslot : a.accepted[n]? = some slot) :
    RingSlot.loadGen b.geom (writes n) = slotStamp b.geom.slots n := by
  have hstamp := hab.ring.stamped _ slot hslot
  rw [← (hwrites _ slot hslot).2] at hstamp
  exact hstamp

/-- The place of the next write holds no word that could be taken for it: the place is clear,
or holds the slot of the lap before. -/
theorem ringAfter_old (hm : m ≤ a.accepted.length) :
    (ringAfter b.geom writes m (m % b.geom.slots.toNat)).length = b.geom.slotSize.toNat
      ∧ RingSlot.loadGen b.geom (ringAfter b.geom writes m (m % b.geom.slots.toNat))
        ≠ slotStamp b.geom.slots m := by
  obtain hfirst | hlap := Nat.lt_or_ge m b.geom.slots.toNat
  · rw [Nat.mod_eq_of_lt hfirst, ringAfter_blank le_rfl hfirst, loadGen_replicate]
    exact ⟨List.length_replicate, b.geom.slotStamp_first hfirst⟩
  · obtain ⟨n, rfl⟩ := Nat.exists_eq_add_of_le' hlap
    have hlt : n < n + b.geom.slots.toNat := Nat.lt_add_of_pos_right b.geom.slots_pos
    obtain ⟨x, hx⟩ : ∃ x, a.accepted[n]? = some x :=
      ⟨_, List.getElem?_eq_getElem (hlt.trans_le hm)⟩
    rw [Nat.add_mod_right, ringAfter_placed hlt le_rfl, loadGen_writes hab hwrites hx]
    exact ⟨(hwrites n x hx).1, (b.geom.slotStamp_lap n).symm⟩

end

include hba

/-- The place and the word that are polled, by the number of slots taken. -/
theorem pollBytes_eq (mem later : ℕ → List UInt8) :
    b.peer.pollBytes b.geom mem later
      = if RingSlot.loadGen b.geom (mem (b.taken.length % b.geom.slots.toNat))
          = slotStamp b.geom.slots b.taken.length then
        some (RingSlot.load b.geom (later (b.taken.length % b.geom.slots.toNat))) else none := by
  have hplace : (b.peer.rxHead % b.geom.slots.toUInt64).toNat
      = b.taken.length % b.geom.slots.toNat := by
    rw [hba.rxHead]
    exact b.geom.lapPlace_eq _
  unfold Peer.pollBytes
  dsimp only
  rw [hplace, hba.rxHead]
  rfl

include hab hwrites

/-- **What has landed and was not taken is polled.** -/
theorem pollBytes_landed (hreach : a.Reached m part) (hreach' : a.Reached m' part') (hm : m ≤ m')
    {slot : RingSlot} (hlanded : b.taken.length < m)
    (hslot : a.accepted[b.taken.length]? = some slot) :
    b.peer.pollBytes b.geom (ringLanding b.geom writes m part)
      (ringLanding b.geom writes m' part') = some slot := by
  rw [pollBytes_eq hba, ringLanding_untaken hab hreach hlanded,
    ringLanding_untaken hab hreach' (hlanded.trans_le hm),
    if_pos (loadGen_writes hab hwrites hslot), (hwrites _ slot hslot).2]

/-- **Where nothing is left to take, a slot is polled only if it is the next one, whole.** -/
theorem pollBytes_landing (hreach : a.Reached m part) (hreach' : a.Reached m' part') (hm : m ≤ m')
    (hpart : m = m' → part ≤ part') {slot : RingSlot} (hnone : b.taken.length = m)
    (hpoll : b.peer.pollBytes b.geom (ringLanding b.geom writes m part)
      (ringLanding b.geom writes m' part') = some slot) :
    a.accepted[b.taken.length]? = some slot := by
  obtain ⟨holdLen, holdGen⟩ := ringAfter_old hab hwrites hreach.le
  rw [pollBytes_eq hba] at hpoll
  split at hpoll
  · rename_i hword
    have hzero : part ≠ 0 := by
      rintro rfl
      rw [ringLanding_zero, hnone] at hword
      exact holdGen hword
    obtain ⟨x, hx⟩ : ∃ x, a.accepted[m]? = some x :=
      ⟨_, List.getElem?_eq_getElem (hreach.posted hzero)⟩
    obtain ⟨hlen, hload⟩ := hwrites _ x hx
    have hgen := loadGen_writes hab hwrites hx
    rw [hnone, ringLanding, if_pos rfl] at hword
    have hwhole := landing_eq_of_loadGen hlen holdLen (hword.trans hgen.symm)
      (fun heq => holdGen (heq.trans hgen))
    have hlater : ringLanding b.geom writes m' part' (b.taken.length % b.geom.slots.toNat)
        = writes m := by
      obtain hlt | rfl := Nat.lt_or_eq_of_le hm
      · rw [ringLanding_untaken hab hreach' (hnone.trans_lt hlt), hnone]
      · rw [hnone, ringLanding, if_pos rfl]
        exact landing_mono hwhole (hpart rfl)
    rw [hlater, hload] at hpoll
    rw [hnone, hx, Option.some.inj hpoll]
  · cases hpoll

end Polled

/-- **A slot that is polled is whole.** Two endpoints of one geometry do anything at all. The
slots one has posted to the other are staged over arbitrary bytes; they land in order and each
by ascending addresses. The other polls when the write after those that have landed is cut
after any number of bytes, and reads the slot when any more have landed. It takes nothing but
the next slot that was posted, with all it was posted with; and it takes what has landed whole
and was not taken. -/
theorem polled_slot_is_whole (c : LinkCfg) (hgeom : ∀ s, c.geom s = c.geom !s)
    (domain : Bool → Domain) (acts : List LinkAct) (hrun : Link.Runs c domain acts) (s : Bool)
    (stale : ℕ → List UInt8) (hstale : ∀ n, (stale n).length = (c.geom !s).slotSize.toNat) :
    let a := (Link.after c domain acts).side c s
    let b := (Link.after c domain acts).side c !s
    let mem := ringLanding (c.geom !s)
      (fun n => ((a.accepted[n]?).getD RingSlot.zero).stage (c.geom !s) (stale n))
    ∀ m part part', a.Reached a.landed part → a.Reached m part' → a.landed ≤ m →
      (a.landed = m → part ≤ part') →
        (∀ slot, b.peer.pollBytes (c.geom !s) (mem a.landed part) (mem m part') = some slot →
          a.accepted[b.taken.length]? = some slot)
        ∧ ∀ slot, b.peer.nextSlot (c.geom !s).slots = some slot →
          b.peer.pollBytes (c.geom !s) (mem a.landed part) (mem m part') = some slot := by
  intro a b mem m part part' hreach hreach' hm hpart
  obtain ⟨hab, hba⟩ := (hrun.inv hgeom).linked s
  have hwrites : ∀ n slot, a.accepted[n]? = some slot →
      (((a.accepted[n]?).getD RingSlot.zero).stage (c.geom !s) (stale n)).length
          = (c.geom !s).slotSize.toNat
        ∧ RingSlot.load (c.geom !s)
          (((a.accepted[n]?).getD RingSlot.zero).stage (c.geom !s) (stale n)) = slot := by
    intro n slot hslot
    have hsized : slot.Sized (c.geom !s) := by
      rw [← hgeom s]
      exact Link.sized_of_accepted ((hrun.inv hgeom).config s) (hrun.postsSized s)
        (List.mem_of_getElem? hslot)
    rw [hslot]
    exact ⟨RingSlot.length_stage (hstale n) hsized, RingSlot.load_stage (hstale n) hsized⟩
  constructor
  · intro slot hpoll
    obtain hlanded | hnone := Nat.lt_or_eq_of_le hab.ring.taken_le
    · obtain ⟨x, hx⟩ : ∃ x, a.accepted[b.taken.length]? = some x :=
        ⟨_, List.getElem?_eq_getElem (Nat.lt_of_lt_of_le hlanded hab.ring.landed_le)⟩
      have hfound := pollBytes_landed hab hba hwrites hreach hreach' hm hlanded hx
      rw [hx, ← hfound]
      exact hpoll
    · exact pollBytes_landing hab hba hwrites hreach hreach' hm hpart hnone hpoll
  · intro slot hnext
    obtain ⟨hlanded, hslot⟩ := (hba.nextSlot_iff hab slot).mp hnext
    exact pollBytes_landed hab hba hwrites hreach hreach' hm hlanded hslot

/-- A message of eight bytes that is still landing: nothing is polled before the first byte of
its generation word is there, and with that byte it is taken, the other three being clear
already. -/
theorem landing_message_is_polled :
    let acts := Link.shakeHands
      ++ [.own false (.inject (Env.calm numberCookies) 4096 8 1 0 false), .fetch false 0]
    let a := (Link.after Link.twoEnds Link.twoDomains acts).side Link.twoEnds false
    let b := (Link.after Link.twoEnds Link.twoDomains acts).side Link.twoEnds true
    let g := Link.twoEnds.geom true
    let mem := ringLanding g (fun n => ((a.accepted[n]?).getD RingSlot.zero).stage g
      (List.replicate 1024 0xff))
    b.peer.pollBytes g (mem a.landed 1020) (mem a.landed 1022) = none
      ∧ (b.peer.pollBytes g (mem a.landed 1021) (mem a.landed 1022)).isSome
      ∧ ∀ slot, b.peer.pollBytes g (mem a.landed 1021) (mem a.landed 1022) = some slot →
        a.accepted[b.taken.length]? = some slot := by
  intro acts a b g mem
  have hrun : Link.Runs Link.twoEnds Link.twoDomains acts := by decide +kernel
  have hposted : a.landed < a.accepted.length := by decide +kernel
  exact ⟨by decide +kernel, by decide +kernel,
    (polled_slot_is_whole Link.twoEnds (fun _ => rfl) Link.twoDomains acts hrun false
      (fun _ => List.replicate 1024 0xff) (fun _ => List.length_replicate) a.landed 1021 1022
      ⟨hposted.le, fun _ => hposted⟩ ⟨hposted.le, fun _ => hposted⟩ le_rfl
      (fun _ => by decide)).1⟩
