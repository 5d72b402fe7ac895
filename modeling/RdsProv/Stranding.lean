import RdsProv.Handshake

/-!
# Slots that nobody will read

An endpoint that gives up a handshake disables the peer, and never polls the ring it
keeps for it. If its request was heard nevertheless, the other side is `READY`, places
slots in that ring and completes its sends: the messages are stranded.

Two clocks and a network decide whether that happens. What rules it out is that a
handshake is given up only while nobody has heard it and nobody can still hear it
(`World.Patient`): then a disabled peer's ring was never adopted, and never will be.
The invariant is `World.Unstranded`.
-/

/-! ## Books -/

/-- **A book with discreet disabled records**: nothing was sent to a disabled peer's
ring, and no handshake advertises the ring kept for it. -/
structure RingBook.Discreet (b : RingBook) : Prop where
  head : ∀ a p, b.table a = some p → p.state = .disabled → p.txHead = 0
  silent : ∀ a p, b.table a = some p → p.state = .disabled → p.rxRingMr ≠ none →
    ∀ x ∈ b.ctrl, x.1 ≠ p.sa

/-- A handshake that may be given up is under way, and not on the network. -/
def RingBook.Due (inp : RingInput) (b : RingBook) : Prop :=
  ∀ a, inp.expires a → ∃ p, b.table a = some p ∧ p.state ≠ .none ∧ ∀ x ∈ b.ctrl, x.1 ≠ p.sa

/-- What a rule can do to the handshake of a record. -/
inductive Peer.Turns (cfg : EpCfg) (inp : RingInput) (p p' : Peer) : Prop
  | stays (hstate : p'.state = p.state) (hhead : p'.txHead = p.txHead ∨ p.state = .ready)
  | kicked (hstate : p.state = .none) (hstate' : p'.state = .connecting)
      (hhead : p'.txHead = p.txHead)
  | expired (hstate : p.state = .connecting) (hstate' : p'.state = .disabled)
      (hin : inp.expires p.addr) (hhead : p'.txHead = p.txHead)
  | refused {op : UInt8} {i : RingInfo} (hstate' : p'.state = .disabled)
      (hin : inp.hears p.addr op i)
      (hgeom : i.slots ≠ cfg.geom.slots ∨ i.slotSize ≠ cfg.geom.slotSize)
  | adopted {op : UInt8} {i : RingInfo} (hstate : p.state ≠ .disabled)
      (hstate' : p'.state = .ready) (hin : inp.hears p.addr op i)

namespace RingBook

variable {cfg : EpCfg} {inp : RingInput} {b b' : RingBook} {heard : UInt64 → RingInfo → Prop}

/-- An address vector without repetitions has one record for each peer. -/
theorem Fit.eq_of_sa (hb : b.Fit cfg heard) (hav : cfg.av.Nodup) {a a' : UInt64} {p p' : Peer}
    (hp : b.table a = some p) (hp' : b.table a' = some p') (hsa : p.sa = p'.sa) : a = a' := by
  have h := (hb.peers a p hp).sa
  have h' := (hb.peers a' p' hp').sa
  rw [hb.key a p hp] at h
  rw [hb.key a' p' hp', ← hsa] at h'
  obtain ⟨hlt, hget⟩ := List.getElem?_eq_some_iff.mp (getElem?_of_rdsAvAddr h)
  obtain ⟨hlt', hget'⟩ := List.getElem?_eq_some_iff.mp (getElem?_of_rdsAvAddr h')
  exact UInt64.toNat_inj.mp ((hav.getElem_inj_iff).mp (hget.trans hget'.symm))

/-- **Every rule turns the handshakes of records that last**, or creates one. -/
theorem Rule.turns (h : Rule cfg inp b b') {a : UInt64} {p' : Peer} (hp' : b'.table a = some p') :
    (b.table a = none ∧ ∃ sa, p'.Created a sa)
      ∨ ∃ p, b.table a = some p ∧ p.Lasts p' ∧ p.Turns cfg inp p' := by
  -- a record is put back under its address
  have hput {p q : Peer} (hp : b.table p.addr = some p) (hp' : (b.put q).table a = some p')
      (hlasts : p.Lasts q) (hturns : p.Turns cfg inp q) :
      ∃ p, b.table a = some p ∧ p.Lasts p' ∧ p.Turns cfg inp p' := by
    by_cases ha : a = q.addr
    · rw [ha, table_put_self] at hp'
      cases hp'
      exact ⟨p, by rw [ha, hlasts.addr]; exact hp, hlasts, hturns⟩
    · rw [table_put_of_ne b ha] at hp'
      exact ⟨p', hp', .refl p', .stays rfl (.inl rfl)⟩
  cases h with
  | quiet h =>
    cases h with
    | @create a' sa q hnone hsa hq =>
      have haddr : q.addr = a' := by
        obtain ⟨ring, credit, rfl⟩ | rfl := hq
        · rfl
        · rfl
      by_cases ha : a = q.addr
      · rw [ha, table_put_self] at hp'
        cases hp'
        rw [ha, haddr]
        exact .inl ⟨hnone, sa, hq⟩
      · rw [table_put_of_ne b ha] at hp'
        exact .inr ⟨p', hp', .refl p', .stays rfl (.inl rfl)⟩
    | kick hq hstate =>
      refine .inr (hput hq hp' ?_ (.kicked hstate rfl rfl))
      exact ⟨rfl, rfl, rfl, rfl, fun hd => by rw [hstate] at hd; cases hd⟩
    | expire hq hstate hin =>
      refine .inr (hput hq hp' ?_ (.expired hstate rfl hin rfl))
      exact ⟨rfl, rfl, rfl, rfl, fun _ => rfl⟩
    | refuse hq hin hstate hring hcredit hgeom =>
      refine .inr (hput hq hp' ?_ (.refused rfl hin hgeom))
      exact ⟨rfl, rfl, rfl, rfl, fun _ => rfl⟩
    | adopt hq hin hstate =>
      refine .inr (hput hq hp' ?_ (.adopted hstate rfl hin))
      exact ⟨rfl, rfl, rfl, rfl, fun hd => absurd hd hstate⟩
    | @refresh q hq hstate =>
      have hs := Peer.Steady.refreshCredit q
      have hst : q.refreshCredit.state = q.state := by
        unfold Peer.refreshCredit
        split <;> rfl
      exact .inr (hput hq hp' ⟨hs.addr, hs.sa, hs.rxRingMr, hs.creditMr, fun hd => hst.trans hd⟩
        (.stays hst (.inl hs.txHead)))
    | stage hq =>
      refine .inr (hput hq hp' ?_ (.stays rfl (.inl rfl)))
      exact ⟨rfl, rfl, rfl, rfl, id⟩
  | @absorb q slot hq =>
    have hs := Peer.Steady.absorbAck q slot.ack
    have hst : (q.absorbAck slot.ack).state = q.state := by
      unfold Peer.absorbAck
      split <;> rfl
    exact .inr (hput hq hp' ⟨hs.addr, hs.sa, hs.rxRingMr, hs.creditMr, fun hd => hst.trans hd⟩
      (.stays hst (.inl hs.txHead)))
  | place hq hstate =>
    refine .inr (hput hq hp' ?_ (.stays rfl (.inr hstate)))
    exact ⟨rfl, rfl, rfl, rfl, id⟩
  | consume hq | withhold hq | credit hq | land hq | landCredit hq =>
    refine .inr (hput hq hp' ?_ (.stays rfl (.inl rfl)))
    exact ⟨rfl, rfl, rfl, rfl, id⟩

/-- **Handshakes are sent when one is started or answered.** -/
theorem Rule.ctrl (h : Rule cfg inp b b') : b'.ctrl = b.ctrl
    ∨ ∃ p op i, b.table p.addr = some p ∧ b'.ctrl = b.ctrl ++ [(p.sa, op, i)]
      ∧ (p.state = .none ∨ (p.state ≠ .disabled ∧ ∃ op i, inp.hears p.addr op i)) := by
  cases h with
  | quiet h =>
    cases h with
    | @kick p t ctrl hp hstate hctrl =>
      obtain rfl | ⟨i, -, rfl⟩ := hctrl
      · exact .inl rfl
      · exact .inr ⟨p, _, i, hp, rfl, .inl hstate⟩
    | @adopt p op i ctrl hp hin hstate hring hcredit hslots hsize hctrl =>
      obtain rfl | ⟨i', -, rfl⟩ := hctrl
      · exact .inl rfl
      · exact .inr ⟨p, _, i', hp, rfl, .inr ⟨hstate, op, i, hin⟩⟩
    | create | expire | refuse | refresh | stage => exact .inl rfl
  | place | absorb | consume | withhold | credit | land | landCredit => exact .inl rfl

/-- A record that is disabled and has a ring was disabled before, or a handshake was
given up. -/
theorem Rule.disabled (h : Rule cfg inp b b')
    (hgeom : ∀ a op i, inp.hears a op i →
      i.slots = cfg.geom.slots ∧ i.slotSize = cfg.geom.slotSize)
    {a : UInt64} {p' : Peer} (hp' : b'.table a = some p') (hdisabled : p'.state = .disabled)
    (hring : p'.rxRingMr ≠ none) :
    ∃ p, b.table a = some p ∧ p.Lasts p'
      ∧ (p.state = .disabled ∨ (p.state = .connecting ∧ inp.expires p.addr)) := by
  obtain ⟨-, sa, hcreated⟩ | ⟨p, hp, hlasts, hturns⟩ := h.turns hp'
  · obtain ⟨ring, credit, rfl⟩ | rfl := hcreated
    · cases hdisabled
    · exact absurd rfl hring
  · refine ⟨p, hp, hlasts, ?_⟩
    cases hturns with
    | stays hstate hhead => exact .inl (hstate.symm.trans hdisabled)
    | kicked hstate hstate' hhead =>
      rw [hstate'] at hdisabled
      cases hdisabled
    | expired hstate hstate' hin hhead => exact .inr ⟨hstate, hin⟩
    | refused hstate' hin hne =>
      obtain ⟨hslots, hsize⟩ := hgeom _ _ _ hin
      exact absurd hne (not_or.mpr ⟨not_not_intro hslots, not_not_intro hsize⟩)
    | adopted hstate hstate' hin =>
      rw [hstate'] at hdisabled
      cases hdisabled

/-- **Disabled records stay discreet**, if a handshake is given up only where it is due
and nobody has another geometry. -/
theorem Rule.discreet (h : Rule cfg inp b b') (hav : cfg.av.Nodup) (hfit : b.Fit cfg heard)
    (hgeom : ∀ a op i, inp.hears a op i →
      i.slots = cfg.geom.slots ∧ i.slotSize = cfg.geom.slotSize)
    (hdeaf : ∀ a, inp.expires a → ∀ a' op i, ¬ inp.hears a' op i) (hdue : b.Due inp)
    (hb : b.Discreet) : b'.Discreet where
  head a p' hp' hdisabled := by
    obtain ⟨-, sa, hcreated⟩ | ⟨p, hp, hlasts, hturns⟩ := h.turns hp'
    · obtain ⟨ring, credit, rfl⟩ | rfl := hcreated
      · rfl
      · rfl
    cases hturns with
    | stays hstate hhead =>
      have hpd : p.state = .disabled := hstate.symm.trans hdisabled
      obtain hhead | hready := hhead
      · exact hhead.trans (hb.head a p hp hpd)
      · rw [hpd] at hready
        cases hready
    | kicked hstate hstate' hhead =>
      rw [hstate'] at hdisabled
      cases hdisabled
    | expired hstate hstate' hin hhead =>
      exact hhead.trans ((hfit.peers a p hp).head (.inr hstate))
    | refused hstate' hin hne =>
      obtain ⟨hslots, hsize⟩ := hgeom _ _ _ hin
      exact absurd hne (not_or.mpr ⟨not_not_intro hslots, not_not_intro hsize⟩)
    | adopted hstate hstate' hin =>
      rw [hstate'] at hdisabled
      cases hdisabled
  silent a p' hp' hdisabled hring x hx := by
    obtain ⟨p, hp, hlasts, hcause⟩ := h.disabled hgeom hp' hdisabled hring
    rw [hlasts.sa]
    -- what was on the network before was not for this peer
    have hold : ∀ x ∈ b.ctrl, x.1 ≠ p.sa := by
      obtain hpd | ⟨-, hin⟩ := hcause
      · exact hb.silent a p hp hpd (hlasts.rxRingMr ▸ hring)
      · obtain ⟨q, hq, -, hsilent⟩ := hdue _ hin
        rw [hfit.key a p hp, hp] at hq
        cases hq
        exact hsilent
    obtain hctrl | ⟨q, op, i, hq, hctrl, hstate⟩ := h.ctrl
    · exact hold x (hctrl ▸ hx)
    rw [hctrl, List.mem_append, List.mem_singleton] at hx
    obtain hx | rfl := hx
    · exact hold x hx
    · intro hsa
      have ha : q.addr = a := hfit.eq_of_sa hav hq hp hsa
      rw [ha, hp] at hq
      cases hq
      obtain hnone | ⟨hne, op, i, hin⟩ := hstate
      · obtain hpd | ⟨hconn, -⟩ := hcause
        · rw [hpd] at hnone
          cases hnone
        · rw [hconn] at hnone
          cases hnone
      · obtain hpd | ⟨-, hexp⟩ := hcause
        · exact hne hpd
        · exact hdeaf _ hexp _ _ _ hin

/-- What may be given up stays due, if nothing is heard meanwhile. -/
theorem Rule.due (h : Rule cfg inp b b') (hav : cfg.av.Nodup) (hfit : b.Fit cfg heard)
    (hdeaf : ∀ a, inp.expires a → ∀ a' op i, ¬ inp.hears a' op i) (hdue : b.Due inp) :
    b'.Due inp := by
  intro a hin
  obtain ⟨p, hp, hstate, hsilent⟩ := hdue a hin
  obtain ⟨p', hp', hlasts⟩ := h.lasts hp
  refine ⟨p', hp', ?_, fun x hx => ?_⟩
  · obtain ⟨hnone, -⟩ | ⟨q, hq, -, hturns⟩ := h.turns hp'
    · rw [hp] at hnone
      cases hnone
    rw [hp] at hq
    cases hq
    cases hturns with
    | stays hsame hhead =>
      rw [hsame]
      exact hstate
    | kicked hnone hstate' hhead => exact absurd hnone hstate
    | expired hconn hstate' hexp hhead =>
      rw [hstate']
      decide
    | refused hstate' hhear hne =>
      rw [hstate']
      decide
    | adopted hne hstate' hhear =>
      rw [hstate']
      decide
  · rw [hlasts.sa]
    obtain hctrl | ⟨q, op, i, hq, hctrl, hqstate⟩ := h.ctrl
    · exact hsilent x (hctrl ▸ hx)
    rw [hctrl, List.mem_append, List.mem_singleton] at hx
    obtain hx | rfl := hx
    · exact hsilent x hx
    · intro hsa
      obtain hnone | ⟨-, op, i, hhear⟩ := hqstate
      · have ha : q.addr = a := hfit.eq_of_sa hav hq hp hsa
        rw [ha, hp] at hq
        cases hq
        exact hstate hnone
      · exact hdeaf a hin _ _ _ hhear

/-- **A record becomes `READY` only by hearing a handshake.** -/
theorem Rule.ready (h : Rule cfg inp b b') {a : UInt64} {q' : Peer} (hq' : b'.table a = some q')
    (hready : q'.state = .ready) :
    ∃ q, b.table a = some q ∧ q.Lasts q' ∧ (q.state = .ready ∨ ∃ op i, inp.hears q.addr op i) := by
  obtain ⟨-, sa, hcreated⟩ | ⟨q, hq, hlasts, hturns⟩ := h.turns hq'
  · obtain ⟨ring, credit, rfl⟩ | rfl := hcreated
    · cases hready
    · cases hready
  refine ⟨q, hq, hlasts, ?_⟩
  cases hturns with
  | stays hstate hhead => exact .inl (hstate.symm.trans hready)
  | kicked hstate hstate' hhead =>
    rw [hstate'] at hready
    cases hready
  | expired hstate hstate' hin hhead =>
    rw [hstate'] at hready
    cases hready
  | refused hstate' hin hne =>
    rw [hstate'] at hready
    cases hready
  | adopted hstate hstate' hin => exact .inr ⟨_, _, hin⟩

/-! ### Whole steps -/

section Steps

variable (h : Rules cfg inp b b') (hav : cfg.av.Nodup) (hfit : b.Fit cfg heard)
  (hhears : ∀ a op i, inp.hears a op i → heard a i)
  (hlands : ∀ a idx slot, inp.lands a idx slot → slot.ctrl? = none)
  (hgeom : ∀ a op i, inp.hears a op i → i.slots = cfg.geom.slots ∧ i.slotSize = cfg.geom.slotSize)
  (hdeaf : ∀ a, inp.expires a → ∀ a' op i, ¬ inp.hears a' op i)

include h hav hfit hhears hlands hgeom hdeaf in
theorem Rules.discreet (hdue : b.Due inp) (hb : b.Discreet) : b'.Discreet := by
  -- what may be given up is due all along
  have hboth : b'.Discreet ∧ b'.Due inp := by
    induction h with
    | refl => exact ⟨hb, hdue⟩
    | tail hrules hstep ih =>
      have hmid := Rules.fit hrules hfit hhears hlands
      exact ⟨hstep.discreet hav hmid hgeom hdeaf ih.2 ih.1, hstep.due hav hmid hdeaf ih.2⟩
  exact hboth.1

include h hfit hhears hlands hgeom in
theorem Rules.disabled {a : UInt64} {p' : Peer} (hp' : b'.table a = some p')
    (hdisabled : p'.state = .disabled) (hring : p'.rxRingMr ≠ none) :
    (∃ p, b.table a = some p ∧ p.Lasts p' ∧ p.state = .disabled) ∨ inp.expires a := by
  induction h generalizing p' with
  | refl => exact .inl ⟨p', hp', .refl p', hdisabled⟩
  | tail hrules hstep ih =>
    obtain ⟨p, hp, hlasts, hpd | ⟨-, hin⟩⟩ := hstep.disabled hgeom hp' hdisabled hring
    · obtain ⟨r, hr, hlasts', hrd⟩ | hin := ih hp hpd (hlasts.rxRingMr ▸ hring)
      · exact .inl ⟨r, hr, hlasts'.trans hlasts, hrd⟩
      · exact .inr hin
    · rw [(Rules.fit hrules hfit hhears hlands).key a p hp] at hin
      exact .inr hin

include h hfit hhears hlands in
theorem Rules.ready {a : UInt64} {q' : Peer} (hq' : b'.table a = some q')
    (hready : q'.state = .ready) :
    (∃ q, b.table a = some q ∧ q.Lasts q' ∧ q.state = .ready) ∨ ∃ op i, inp.hears a op i := by
  induction h generalizing q' with
  | refl => exact .inl ⟨q', hq', .refl q', hready⟩
  | tail hrules hstep ih =>
    obtain ⟨q, hq, hlasts, hqr | hin⟩ := hstep.ready hq' hready
    · obtain ⟨r, hr, hlasts', hrr⟩ | hin := ih hq hqr
      · exact .inl ⟨r, hr, hlasts'.trans hlasts, hrr⟩
      · exact .inr hin
    · rw [(Rules.fit hrules hfit hhears hlands).key a q hq] at hin
      exact .inr hin

end Steps

end RingBook

/-! ## Systems -/

namespace World

variable {ι : Type} [DecidableEq ι]

/-- **What is possible on a network that delivers each datagram at most once**: a datagram
goes from the endpoint that sent it to its destination, or is lost; a slot that lands was
posted by someone. Rings are polled, deadlines pass and credit lands at any time. -/
def Carries (w : World ι) : WorldAct ι → Prop
  | .own j a => (w j).Admits a ∧ match a with
      | .recv _ _ _ => False
      | .landSlot _ idx slot => ∃ j, ∃ op ∈ (w j).writes, op.loc = .stage idx slot
      | _ => True
  | .deliver _ j k d => d ∈ (w j).wire ∧ d.dst = (w k).cfg.self
  | .lose j d => d ∈ (w j).wire
  | .poll _ _ _ _ _ => False

/-- **Nobody has adopted the ring** that an endpoint keeps for a peer, and no handshake
that advertises it is under way. -/
def Unheard (w : World ι) (k : ι) (p : Peer) : Prop :=
  (∀ d ∈ (w k).wire, d.dst = p.sa → d.ctrl? = none)
    ∧ ∀ j b q, (w j).cfg.self = p.sa → rdsPeerFind (w j) b = some q → q.sa = (w k).cfg.self →
      q.state ≠ .ready

/-- An endpoint may give up a handshake only while it is unheard. -/
def PatientAt (w : World ι) (k : ι) (env : Env) (dest : UInt64) : Prop :=
  (w k).Overdue env dest →
    ∃ p, rdsPeerFind (w k) dest = some p ∧ p.state = .connecting ∧ w.Unheard k p

/-- **No action gives up a handshake that was or will be heard.** -/
def Patient (w : World ι) : WorldAct ι → Prop
  | .own k (.send env _ dest _ _ _ _ _) => w.PatientAt k env dest
  | .own k (.inject env _ _ dest _ _) => w.PatientAt k env dest
  | _ => True

/-- **Nobody fills a ring that nobody reads**: a disabled peer with a ring has not adopted
it, nor will it. -/
structure Unstranded (cfg : ι → EpCfg) (w : World ι) : Prop where
  books : w.HandshakeInv cfg
  discreet : ∀ k, (w k).ringBook.Discreet
  unheard : ∀ k a p, rdsPeerFind (w k) a = some p → p.state = .disabled → p.rxRingMr ≠ none →
    ∀ j b q, (cfg j).self = p.sa → rdsPeerFind (w j) b = some q → q.sa = (cfg k).self →
      q.state ≠ .ready

section Step

variable {cfg : ι → EpCfg} {w : World ι}

/-- The endpoints that an endpoint hears have not given it up. -/
def Welcome (cfg : ι → EpCfg) (w : World ι) (m : ι) (a : UInt64) : Prop :=
  ∀ k b p, rdsAvAddr (cfg m) a = some (cfg k).self → rdsPeerFind (w k) b = some p →
    p.sa = (cfg m).self → p.rxRingMr ≠ none → p.state ≠ .disabled

omit [DecidableEq ι] in
/-- Only sends and injections give up handshakes, and they hear nothing. -/
theorem deaf (ep : Ep) (act : EpAct) {a : UInt64} (h : (ep.ringInputDue act).expires a)
    (a' : UInt64) (op : UInt8) (i : RingInfo) : ¬ (ep.ringInputDue act).hears a' op i := by
  intro hhears
  cases act with
  | send | inject => exact hhears
  | postRecv | cancel | rma | injectWrite | recv | notify | retry | poll | flush | landSlot
  | landCredit | shareDomain => exact h

/-- **One action of an endpoint strands nothing**, if it gives up only unheard handshakes
and hears only endpoints that have not given it up. -/
theorem Unstranded.step_of (h : w.Unstranded cfg) (hnodup : ∀ j, (cfg j).av.Nodup)
    (hgeom : ∀ j k, (cfg j).geom = (cfg k).geom) {m : ι} {act : EpAct}
    (hhears : ∀ a op i, ((w m).ringInputDue act).hears a op i →
      w.Heard cfg m a i ∧ w.Welcome cfg m a)
    (hlands : ∀ a idx slot, ((w m).ringInputDue act).lands a idx slot → slot.ctrl? = none)
    (hexpires : ∀ a, ((w m).ringInputDue act).expires a →
      ∃ p, rdsPeerFind (w m) a = some p ∧ p.state = .connecting ∧ w.Unheard m p) :
    (w.step (m, act)).Unstranded cfg := by
  have hcfg := h.books.config
  obtain ⟨-, hrules⟩ := (w m).act_ring_due act
  rw [hcfg] at hrules
  have hfit := h.books.fit m
  have hheard := fun a op i hin => (hhears a op i hin).1
  have hbooks : (w.step (m, act)).HandshakeInv cfg := h.books.step_of hheard hlands
  have hequal : ∀ a op i, ((w m).ringInputDue act).hears a op i →
      i.slots = (cfg m).geom.slots ∧ i.slotSize = (cfg m).geom.slotSize := by
    intro a op i hin
    obtain ⟨j, b, q, -, -, -, hinfo⟩ := hheard a op i hin
    obtain ⟨ring, credit, -, -, rfl⟩ := Peer.info?_eq_some hinfo
    rw [hgeom j m]
    exact ⟨rfl, rfl⟩
  have hdue : (w m).ringBook.Due ((w m).ringInputDue act) := by
    intro a hin
    obtain ⟨p, hp, hconn, hsilent, -⟩ := hexpires a hin
    refine ⟨p, hp, by rw [hconn]; decide, fun x hx hsa => ?_⟩
    obtain ⟨d, hd, hctrl⟩ := List.mem_filterMap.mp hx
    obtain ⟨c, hc, rfl⟩ := Option.map_eq_some_iff.mp hctrl
    rw [hsilent d hd hsa] at hc
    cases hc
  refine ⟨hbooks, fun k => ?_, fun k a p' hp' hdisabled hring j b q' hj hq' hqsa hready => ?_⟩
  · by_cases hk : k = m
    · rw [hk, step_self]
      exact hrules.discreet (hnodup m) hfit hheard hlands hequal (fun _ => deaf (w m) act) hdue
        (h.discreet m)
    · rw [step_of_ne w act hk]
      exact h.discreet k
  -- the disabled record: it was, or this action gave up its handshake
  have hgone : (∃ p, rdsPeerFind (w k) a = some p ∧ p.Lasts p' ∧ p.state = .disabled)
      ∨ (k = m ∧ ((w m).ringInputDue act).expires a) := by
    by_cases hk : k = m
    · rw [hk, step_self] at hp'
      rw [hk]
      exact (hrules.disabled hfit hheard hlands hequal hp' hdisabled hring).imp_right (⟨rfl, ·⟩)
    · rw [step_of_ne w act hk] at hp'
      exact .inl ⟨p', hp', .refl p', hdisabled⟩
  -- the ready record: it was, or this action heard a handshake
  have hcame : (∃ q, rdsPeerFind (w j) b = some q ∧ q.Lasts q' ∧ q.state = .ready)
      ∨ (j = m ∧ ∃ op i, ((w m).ringInputDue act).hears b op i) := by
    by_cases hk : j = m
    · rw [hk, step_self] at hq'
      rw [hk]
      exact (hrules.ready hfit hheard hlands hq' hready).imp_right (⟨rfl, ·⟩)
    · rw [step_of_ne w act hk] at hq'
      exact .inl ⟨q', hq', .refl q', hready⟩
  obtain ⟨p, hp, hlasts, hpd⟩ | ⟨rfl, hexp⟩ := hgone
  · have hpsa : (cfg j).self = p.sa := hj.trans hlasts.sa
    have hpring : p.rxRingMr ≠ none := hlasts.rxRingMr ▸ hring
    obtain ⟨q, hq, hlasts', hqr⟩ | ⟨rfl, op, i, hin⟩ := hcame
    · exact h.unheard k a p hp hpd hpring j b q hpsa hq (hlasts'.sa ▸ hqsa) hqr
    · have hav : rdsAvAddr (cfg j) b = some (cfg k).self := by
        rw [← hqsa, ← (hbooks.fit j).key b q' hq']
        exact ((hbooks.fit j).peers b q' hq').sa
      exact (hhears b op i hin).2 k a p hav hp hpsa.symm hpring hpd
  · obtain ⟨p, hp, -, -, hunheard⟩ := hexpires a hexp
    obtain ⟨p'', hp'', hlasts⟩ := step_lasts w (k, act) hp
    rw [hp'] at hp''
    cases hp''
    obtain ⟨q, hq, hlasts', hqr⟩ | ⟨rfl, op, i, hin⟩ := hcame
    · refine hunheard j b q ?_ hq ?_ hqr
      · rw [hcfg, hj, hlasts.sa]
      · rw [hcfg, ← hqsa, hlasts'.sa]
    · exact deaf (w j) act hexp b op i hin

/-! ### Datagrams leave the network -/

theorem find_unsend (w : World ι) (j : ι) (d : Dgram) (k : ι) :
    rdsPeerFind (w.unsend j d k) = rdsPeerFind (w k) := by
  unfold unsend
  by_cases hk : k = j
  · rw [hk, Function.update_self]
    rfl
  · rw [Function.update_of_ne hk]

theorem ctrl_unsend (w : World ι) (j : ι) (d : Dgram) (k : ι) :
    ∀ x ∈ (w.unsend j d k).ringBook.ctrl, x ∈ (w k).ringBook.ctrl := by
  unfold unsend
  by_cases hk : k = j
  · rw [hk, Function.update_self]
    exact (List.Sublist.filterMap _ List.erase_sublist).subset
  · rw [Function.update_of_ne hk]
    exact fun _ hx => hx

theorem heard_unsend (w : World ι) (j : ι) (d : Dgram) (k : ι) :
    (w.unsend j d).Heard cfg k = w.Heard cfg k := by
  funext a i
  unfold Heard
  simp only [find_unsend]

theorem HandshakeInv.unsend (h : w.HandshakeInv cfg) (j : ι) (d : Dgram) :
    (w.unsend j d).HandshakeInv cfg where
  config k := by
    rw [← h.config k]
    unfold World.unsend
    by_cases hk : k = j
    · rw [hk, Function.update_self]
    · rw [Function.update_of_ne hk]
  fit k := by
    rw [heard_unsend]
    have htable : (w.unsend j d k).ringBook.table = (w k).ringBook.table := find_unsend w j d k
    have hwrites : (w.unsend j d k).ringBook.writes = (w k).ringBook.writes := by
      unfold World.unsend
      by_cases hk : k = j
      · rw [hk, Function.update_self]
        rfl
      · rw [Function.update_of_ne hk]
    refine ⟨?_, ?_, fun x hx => ?_, ?_⟩
    · rw [htable]
      exact (h.fit k).key
    · rw [htable]
      exact (h.fit k).peers
    · rw [htable]
      exact (h.fit k).ctrl x (ctrl_unsend w j d k x hx)
    · rw [hwrites]
      exact (h.fit k).writes

theorem Unstranded.unsend (h : w.Unstranded cfg) (j : ι) (d : Dgram) :
    (w.unsend j d).Unstranded cfg where
  books := h.books.unsend j d
  discreet k := by
    have htable : (w.unsend j d k).ringBook.table = (w k).ringBook.table := find_unsend w j d k
    refine ⟨?_, fun a p hp hdisabled hring x hx => ?_⟩
    · rw [htable]
      exact (h.discreet k).head
    · rw [htable] at hp
      exact (h.discreet k).silent a p hp hdisabled hring x (ctrl_unsend w j d k x hx)
  unheard := by
    simp only [find_unsend]
    exact h.unheard

/-! ### Every action -/

/-- **One action of a system strands nothing**, if no handshake is given up that was or
will be heard. -/
theorem Unstranded.act (h : w.Unstranded cfg) (hself : Function.Injective fun j => (cfg j).self)
    (hav : ∀ j, (cfg j).av.length ≤ 2 ^ 64) (hnodup : ∀ j, (cfg j).av.Nodup)
    (hgeom : ∀ j k, (cfg j).geom = (cfg k).geom) {x : WorldAct ι} (hx : w.Carries x)
    (hpatient : w.Patient x) : (w.act x).Unstranded cfg := by
  cases x with
  | poll => exact hx.elim
  | lose j d => exact h.unsend j d
  | deliver env j k d =>
    obtain ⟨hd, hdst⟩ := hx
    refine (h.unsend j d).step_of hnodup hgeom (fun a op i hin => ?_) (fun _ _ _ hin => hin.elim)
      (fun _ hin => hin.elim)
    obtain ⟨hctrl, hidx, hknown⟩ := hin
    rw [(h.unsend j d).books.config] at hidx
    rw [h.books.config] at hdst
    have hlists : rdsAvAddr (cfg k) a = some (cfg j).self := by
      rw [← h.books.config j]
      exact rdsAvAddr_of_get (hav k) hidx hknown
    have hctrl : d.ctrl? = some (op, i) := hctrl
    have hmem : (d.dst, op, i) ∈ (w j).ringBook.ctrl :=
      List.mem_filterMap.mpr ⟨d, hd, by rw [hctrl]; rfl⟩
    refine ⟨?_, fun m b p hm hp hpsa hring hdisabled => ?_⟩
    · obtain ⟨b, q, hq, hsa, hinfo⟩ := (h.books.fit j).ctrl _ hmem
      rw [heard_unsend]
      exact ⟨j, b, q, hlists, hq, hsa.trans hdst, hinfo⟩
    · -- it was sent by an endpoint that is silent about the rings it has given up
      have hmj : m = j := hself (Option.some.inj (hm.symm.trans hlists))
      rw [find_unsend, hmj] at hp
      exact (h.discreet j).silent b p hp hdisabled hring _ hmem (hdst.trans hpsa.symm)
  | own m a =>
    obtain ⟨-, hx⟩ := hx
    refine h.step_of hnodup hgeom (fun addr op i hin => ?_) (fun addr idx slot hin => ?_)
      (fun addr hin => ?_)
    · cases a with
      | recv => exact hx.elim
      | poll env addr' =>
        -- a ring holds no handshakes
        obtain ⟨rfl, p, slot, hp, hnext, hctrl⟩ := hin
        rw [Peer.nextSlot_eq_some hnext, ((h.books.fit m).peers _ p hp).ring] at hctrl
        cases hctrl
      | send | inject | postRecv | cancel | rma | injectWrite | notify | retry | flush | landSlot
      | landCredit | shareDomain => exact hin.elim
    · have hin : ((w m).ringInput a).lands addr idx slot := hin
      refine h.books.lands (fun addr' idx' slot' heq => ?_) hin
      rw [heq] at hx
      exact hx
    · cases a with
      | send | inject =>
        obtain ⟨rfl, hlate⟩ := hin
        exact hpatient hlate
      | postRecv | cancel | rma | injectWrite | recv | notify | retry | poll | flush | landSlot
      | landCredit | shareDomain => exact hin.elim

omit [DecidableEq ι] in
theorem Unstranded.init (cfg : ι → EpCfg) (domain : ι → Domain) :
    (World.init cfg domain).Unstranded cfg where
  books := .init cfg domain
  discreet _ := ⟨fun _ _ hp => (by cases hp), fun _ _ hp => (by cases hp)⟩
  unheard _ _ _ hp := (by cases hp)

omit [DecidableEq ι] in
/-- **A ring that was written to is not one that was given up.** -/
theorem Unstranded.not_disabled (h : w.Unstranded cfg)
    (hself : Function.Injective fun j => (cfg j).self) (hnodup : ∀ j, (cfg j).av.Nodup) {j k : ι}
    {a b : UInt64} {p q : Peer} (hp : rdsPeerFind (w k) a = some p)
    (hq : rdsPeerFind (w j) b = some q) (hpsa : p.sa = (cfg j).self) (hqsa : q.sa = (cfg k).self)
    (hplaced : q.txHead ≠ 0) : p.state ≠ .disabled := by
  intro hdisabled
  have hfit := (h.books.fit j).peers b q hq
  have hready : q.state = .ready := by
    cases hstate : q.state with
    | none => exact absurd (hfit.head (.inl hstate)) hplaced
    | connecting => exact absurd (hfit.head (.inr hstate)) hplaced
    | ready => rfl
    | disabled => exact absurd ((h.discreet j).head b q hq hstate) hplaced
  -- what was adopted is what this record advertises
  obtain ⟨⟨m, b', q', hlists, hq', hq'sa, hinfo⟩, -⟩ := hfit.ready hready
  obtain ⟨ring, -, hring, -⟩ := Peer.info?_eq_some hinfo
  have hmk : m = k :=
    hself (Option.some.inj (hlists.symm.trans (hfit.sa.trans (congrArg some hqsa))))
  rw [hmk] at hq'
  have hba : b' = a := (h.books.fit k).eq_of_sa (hnodup k) hq' hp (hq'sa.trans hpsa.symm)
  rw [hba, hp] at hq'
  cases hq'
  exact h.unheard k a p hp hdisabled (by rw [hring]; simp) j b q hpsa.symm hq hqsa hready

end Step

/-- **No message is stranded** in a run that gives up no handshake which was or will be
heard. In every state reached, an endpoint that has not consumed a slot which its peer
placed in its ring has not disabled that peer. -/
theorem no_stranded_slots (cfg : ι → EpCfg) (hself : Function.Injective fun j => (cfg j).self)
    (hav : ∀ j, (cfg j).av.length ≤ 2 ^ 64) (hnodup : ∀ j, (cfg j).av.Nodup)
    (hgeom : ∀ j k, (cfg j).geom = (cfg k).geom) (domain : ι → Domain) (acts : List (WorldAct ι))
    (hrun : Along World.act (fun w x => w.Carries x ∧ w.Patient x) (World.init cfg domain) acts)
    (j k : ι) (a b : UInt64) (p q : Peer)
    (hp : rdsPeerFind (World.after cfg domain acts k) a = some p)
    (hq : rdsPeerFind (World.after cfg domain acts j) b = some q) (hpsa : p.sa = (cfg j).self)
    (hqsa : q.sa = (cfg k).self) (hplaced : p.rxHead < q.txHead) : p.state ≠ .disabled := by
  have hinv : (World.after cfg domain acts).Unstranded cfg :=
    Along.invariant (fun w x h hx => h.act hself hav hnodup hgeom hx.1 hx.2) (.init cfg domain) hrun
  refine hinv.not_disabled hself hnodup hp hq hpsa hqsa (fun hzero => ?_)
  rw [hzero] at hplaced
  exact absurd hplaced (by simp [UInt64.lt_iff_toNat_lt])

/-- The first endpoint sends at time `0`, which asks for the ring of the second; the
second answers, but the answer is late; it sends, into the ring of the first; the first
sends again at time `t`. -/
def lateAnswer (t : UInt64) : List (WorldAct (Fin 2)) :=
  let env := Env.calm numberCookies
  [.own 0 (.send env [⟨4096, 8⟩] 1 0 0 7 0 false),
    .deliver env 0 1
      ⟨10, 20, (ctrlHdr rdsOpRingReq).encode ++ (⟨1, 2, 16, 1024⟩ : RingInfo).encode⟩,
    .own 1 (.send env [⟨4096, 8⟩] 0 0 0 8 fiCompletion false),
    .own 0 (.send { env with now := fun _ => t } [⟨4096, 8⟩] 1 0 0 9 0 false)]

/-- The state that run leads to. -/
abbrev lateAnswerAfter (t : UInt64) : World (Fin 2) :=
  World.after ringPair (fun _ => .opened true (some 3) 1024 268435456) (lateAnswer t)

theorem lateAnswer_carries (t : UInt64) : Along World.act World.Carries
    (World.init ringPair fun _ => .opened true (some 3) 1024 268435456) (lateAnswer t) := by
  refine ⟨⟨trivial, trivial⟩, ⟨?_, rfl⟩, ⟨trivial, trivial⟩, ⟨trivial, trivial⟩, trivial⟩
  decide +kernel

/-- At a fixed time, only a handshake that was under way before can be overdue. -/
theorem overdue_at {env : Env} {ep : Ep} {addr : UInt64} (now : UInt64)
    (hnow : ∀ t, env.now t = now) (hlate : ep.Overdue env addr) (state : PeerState)
    (start : UInt64) (hfind : (rdsPeerFind ep addr).map (fun p => (p.state, p.connectStartMs))
      = some (state, start)) :
    state = .connecting ∧ rdsRingConnectTimeoutMs < now - start := by
  obtain ⟨p, hp, heq⟩ := Option.map_eq_some_iff.mp hfind
  obtain ⟨rfl, rfl⟩ := Prod.mk.inj heq
  unfold Ep.Overdue at hlate
  rw [hp] at hlate
  obtain ⟨hconn, t, ht⟩ | ⟨-, t, t', -, ht⟩ := hlate
  · exact ⟨hconn, hnow t ▸ ht⟩
  · rw [hnow, hnow, UInt64.sub_self] at ht
    exact absurd ht (by decide)

/-- If the first endpoint sends before its deadline, nothing is given up. -/
theorem lateAnswer_patient : Along World.act World.Patient
    (World.init ringPair fun _ => .opened true (some 3) 1024 268435456) (lateAnswer 50) := by
  refine ⟨fun hlate => ?_, trivial, fun hlate => ?_, fun hlate => ?_, trivial⟩
  · obtain ⟨t, t', -, ht⟩ := hlate
    exact absurd (show rdsRingConnectTimeoutMs < 0 - 0 from ht) (by decide)
  · obtain ⟨hconn, -⟩ := overdue_at 0 (fun _ => rfl) hlate .ready 0 (by decide +kernel)
    cases hconn
  · obtain ⟨-, hpassed⟩ := overdue_at 50 (fun _ => rfl) hlate .connecting 0 (by decide +kernel)
    exact absurd hpassed (by decide)

/-- The slot of the second endpoint waits in the ring of the first, which has not given
it up. -/
theorem lateAnswer_waits : ∃ p q, rdsPeerFind (lateAnswerAfter 50 0) 1 = some p
    ∧ rdsPeerFind (lateAnswerAfter 50 1) 0 = some q ∧ p.rxHead < q.txHead
    ∧ p.state ≠ .disabled := by
  have hp : (rdsPeerFind (lateAnswerAfter 50 0) 1).map (fun p => (p.sa, p.rxHead))
      = some (20, 0) := by
    decide +kernel
  have hq : (rdsPeerFind (lateAnswerAfter 50 1) 0).map (fun q => (q.sa, q.txHead))
      = some (10, 1) := by
    decide +kernel
  obtain ⟨p, hp, hpeq⟩ := Option.map_eq_some_iff.mp hp
  obtain ⟨q, hq, hqeq⟩ := Option.map_eq_some_iff.mp hq
  obtain ⟨hpsa, hrx⟩ := Prod.mk.inj hpeq
  obtain ⟨hqsa, htx⟩ := Prod.mk.inj hqeq
  have hplaced : p.rxHead < q.txHead := by
    rw [hrx, htx]
    decide
  refine ⟨p, q, hp, hq, hplaced, ?_⟩
  refine no_stranded_slots ringPair (by decide) (by simp [ringPair, EpCfg.standard])
    (by simp [ringPair, EpCfg.standard]) (by intros; rfl) _ (lateAnswer 50)
    ((lateAnswer_carries 50).and lateAnswer_patient) 1 0 1 0 p q hp hq hpsa hqsa hplaced

/-- **A late answer strands a message.** The first endpoint gives up the handshake that the
second has adopted. The second has placed a message in a ring that is never polled, and has
reported its send complete. -/
theorem late_answer_strands :
    Along World.act World.Carries
        (World.init ringPair fun _ => .opened true (some 3) 1024 268435456) (lateAnswer 101)
      ∧ (∃ p q, rdsPeerFind (lateAnswerAfter 101 0) 1 = some p
        ∧ rdsPeerFind (lateAnswerAfter 101 1) 0 = some q ∧ p.sa = (ringPair 1).self
        ∧ q.sa = (ringPair 0).self ∧ p.rxHead < q.txHead ∧ p.state = .disabled)
      ∧ (lateAnswerAfter 101 1).txCq.map CqEntry.context = [8] := by
  have hp : (rdsPeerFind (lateAnswerAfter 101 0) 1).map (fun p => (p.sa, p.rxHead, p.state))
      = some (20, 0, .disabled) := by decide +kernel
  have hq : (rdsPeerFind (lateAnswerAfter 101 1) 0).map (fun q => (q.sa, q.txHead))
      = some (10, 1) := by decide +kernel
  refine ⟨lateAnswer_carries 101, ?_, by decide +kernel⟩
  obtain ⟨p, hp, hpeq⟩ := Option.map_eq_some_iff.mp hp
  obtain ⟨q, hq, hqeq⟩ := Option.map_eq_some_iff.mp hq
  obtain ⟨hpsa, hrest⟩ := Prod.mk.inj hpeq
  obtain ⟨hrx, hstate⟩ := Prod.mk.inj hrest
  obtain ⟨hqsa, htx⟩ := Prod.mk.inj hqeq
  refine ⟨p, q, hp, hq, hpsa, hqsa, ?_, hstate⟩
  rw [hrx, htx]
  decide

end World
