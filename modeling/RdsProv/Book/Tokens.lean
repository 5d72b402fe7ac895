import RdsProv.Book.Refine
import Mathlib.Algebra.BigOperators.Group.Finset.Basic
import Mathlib.Algebra.Order.BigOperators.Group.Finset

/-!
# The tokens of a rendezvous send

A rendezvous send under way is somewhere: its request is on the wire or waits for
a receive, or a receive is reading its source, or its `FIN` is owed, parked or on
the way back. Each of these is a **token** of the send, named by the sender's
address and the id it drew.

The rules move tokens and make none: only opening a send creates one, only a
`FIN` that finds its send consumes one, and only a lossy environment destroys one.
So in a net of books joined by a network that delivers what it was given, every
send that is pending has one token, or at most one if something was lost
(`Net.Balanced.step`).
-/

/-! ## Who carries a token -/

section Carries

variable (self s : SockAddr) (i : UInt64)

/-- A request, or a `FIN`, on its way from an endpoint. -/
def Ctl.Carries : Ctl → Prop
  | .rts id => self = s ∧ id = i
  | .fin peer id => peer = s ∧ id = i

/-- A request or a `FIN` being handled by an endpoint. -/
def Hand.Carries : Hand → Prop
  | .rts src id => src = s ∧ id = i
  | .fin id => self = s ∧ id = i
  | .owe peer id => peer = s ∧ id = i

/-- A rendezvous receive. -/
def Pending.Carries (p : Pending) : Prop := p.type = .rndzvRx ∧ p.peer = s ∧ p.peerId = i

/-- A pending rendezvous send of an endpoint. -/
def Pending.Sends (p : Pending) : Prop := p.type = .rndzvTx ∧ self = s ∧ p.id = i

instance : DecidablePred (Ctl.Carries self s i)
  | .rts _ => inferInstanceAs (Decidable (_ ∧ _))
  | .fin _ _ => inferInstanceAs (Decidable (_ ∧ _))

instance : DecidablePred (Hand.Carries self s i)
  | .rts _ _ => inferInstanceAs (Decidable (_ ∧ _))
  | .fin _ => inferInstanceAs (Decidable (_ ∧ _))
  | .owe _ _ => inferInstanceAs (Decidable (_ ∧ _))

instance : DecidablePred (Pending.Carries s i) :=
  fun _ => inferInstanceAs (Decidable (_ ∧ _ ∧ _))

instance : DecidablePred (Pending.Sends self s i) :=
  fun _ => inferInstanceAs (Decidable (_ ∧ _ ∧ _))

end Carries

/-- What is on its way, once it has arrived. -/
def Ctl.hand (src : SockAddr) : Ctl → Hand
  | .rts id => .rts src id
  | .fin _ id => .fin id

/-- A token arrives as a token, if a `FIN` goes where it was sent. -/
theorem Ctl.carries_hand (c : Ctl) {src dst : SockAddr}
    (hdst : ∀ peer id, c = .fin peer id → peer = dst) (s : SockAddr) (i : UInt64) :
    c.Carries src s i ↔ (c.hand src).Carries dst s i := by
  cases c with
  | rts id => exact Iff.rfl
  | fin peer id =>
    rw [hdst peer id rfl]
    exact Iff.rfl

theorem Pending.Same.carries {p q : Pending} (h : p.Same q) (s : SockAddr) (i : UInt64) :
    q.Carries s i ↔ p.Carries s i := by
  unfold Pending.Carries
  rw [h.type, h.peer, h.peerId]

theorem Pending.Same.sends {p q : Pending} (h : p.Same q) (self s : SockAddr) (i : UInt64) :
    q.Sends self s i ↔ p.Sends self s i := by
  unfold Pending.Sends
  rw [h.type, h.id]

theorem Deferred.Owner.countP_fin {d : Deferred} {p : Pending} (h : d.Owner p) (s : SockAddr)
    (i : UInt64) (ds : Multiset Deferred) :
    (d ::ₘ ds).countP (· = .fin s i) = ds.countP (· = .fin s i) := by
  obtain ⟨_, _, _, rfl, -⟩ := h
  exact Multiset.countP_cons_of_neg _ nofun

namespace Book

section Tokens

variable (self s : SockAddr) (i : UInt64) (b : Book)

/-- The tokens of a send that an endpoint holds. -/
def tokens : ℕ :=
  b.sent.countP (Ctl.Carries self s i) + b.queue.countP (· = (s, i))
    + b.pending.countP (Pending.Carries s i) + b.parked.countP (· = .fin s i)
    + b.hand.countP (Hand.Carries self s i)

/-- The sends an endpoint has pending under an address and an id. -/
def sends : ℕ := b.pending.countP (Pending.Sends self s i)

end Tokens

variable {lossy reports : Prop} {self : SockAddr} {b b' : Book}

/-- A change of books that keeps tokens and sends in balance, or loses tokens if
that is allowed. -/
def Moves (lossy : Prop) (self : SockAddr) (b b' : Book) : Prop :=
  ∀ s i, b'.tokens self s i + b.sends self s i ≤ b.tokens self s i + b'.sends self s i
    ∧ (¬ lossy → b'.tokens self s i + b.sends self s i = b.tokens self s i + b'.sends self s i)

namespace Moves

theorem of_eq (h : ∀ s i, b'.tokens self s i + b.sends self s i
    = b.tokens self s i + b'.sends self s i) : Moves lossy self b b' :=
  fun s i => ⟨(h s i).le, fun _ => h s i⟩

theorem trans {b'' : Book} (h : Moves lossy self b b') (h' : Moves lossy self b' b'') :
    Moves lossy self b b'' := by
  intro s i
  obtain ⟨hle, heq⟩ := h s i
  obtain ⟨hle', heq'⟩ := h' s i
  refine ⟨by omega, fun hlossy => ?_⟩
  have hfirst := heq hlossy
  have hsecond := heq' hlossy
  omega

/-- An operation changed, but not in what names it. -/
theorem update {p q : Pending} {ps : Multiset Pending} (hp : b.pending = p ::ₘ ps)
    (hp' : b'.pending = q ::ₘ ps) (hsame : p.Same q) (hsent : b'.sent = b.sent)
    (hqueue : b'.queue = b.queue) (hhand : b'.hand = b.hand)
    (hparked : ∀ s i, b'.parked.countP (· = Deferred.fin s i)
      = b.parked.countP (· = Deferred.fin s i)) :
    Moves lossy self b b' := by
  refine of_eq (fun s i => ?_)
  have hcarries : b'.pending.countP (Pending.Carries s i)
      = b.pending.countP (Pending.Carries s i) := by
    rw [hp, hp', Multiset.countP_cons, Multiset.countP_cons]
    simp only [hsame.carries]
  have hsends : b'.sends self s i = b.sends self s i := by
    unfold sends
    rw [hp, hp', Multiset.countP_cons, Multiset.countP_cons]
    simp only [hsame.sends]
  unfold tokens
  rw [hcarries, hsends, hsent, hqueue, hhand, hparked]

/-- An operation that is not of rendezvous comes or goes. -/
theorem other {p : Pending} (hrma : p.type = .rma)
    (hpending : b'.pending = p ::ₘ b.pending ∨ b.pending = p ::ₘ b'.pending)
    (hsent : b'.sent = b.sent) (hqueue : b'.queue = b.queue) (hhand : b'.hand = b.hand)
    (hparked : b'.parked = b.parked) : Moves lossy self b b' := by
  refine of_eq (fun s i => ?_)
  have hcarries : ¬ p.Carries s i := fun h => by
    rw [Pending.Carries, hrma] at h
    exact nomatch h.1
  have hsends : ¬ p.Sends self s i := fun h => by
    rw [Pending.Sends, hrma] at h
    exact nomatch h.1
  have hsame : b'.pending.countP (Pending.Carries s i) = b.pending.countP (Pending.Carries s i)
      ∧ b'.sends self s i = b.sends self s i := by
    unfold sends
    rcases hpending with h | h
    · rw [h, Multiset.countP_cons_of_neg _ hcarries, Multiset.countP_cons_of_neg _ hsends]
      exact ⟨rfl, rfl⟩
    · rw [h, Multiset.countP_cons_of_neg _ hcarries, Multiset.countP_cons_of_neg _ hsends]
      exact ⟨rfl, rfl⟩
  unfold tokens
  rw [hsame.1, hsame.2, hsent, hqueue, hhand, hparked]

end Moves

/-- What carries a token is exchanged for something else that does. -/
theorem countP_exchange {α β : Type} {P : α → Prop} {Q : β → Prop} [DecidablePred P]
    [DecidablePred Q] {x : α} {y : β} (h : P x ↔ Q y) (l : Multiset α) (m : Multiset β) :
    (x ::ₘ l).countP P + m.countP Q = l.countP P + (y ::ₘ m).countP Q := by
  by_cases hx : P x
  · rw [Multiset.countP_cons_of_pos _ hx, Multiset.countP_cons_of_pos _ (h.mp hx)]
    omega
  · rw [Multiset.countP_cons_of_neg _ hx, Multiset.countP_cons_of_neg _ (mt h.mpr hx)]

theorem not_sends_of_type {p : Pending} (htype : p.type ≠ .rndzvTx) (self s : SockAddr)
    (i : UInt64) : ¬ p.Sends self s i := fun h => htype h.1

theorem not_carries_of_type {p : Pending} (htype : p.type ≠ .rndzvRx) (s : SockAddr)
    (i : UInt64) : ¬ p.Carries s i := fun h => htype h.1

namespace Moves

variable {p : Pending} {ps : Multiset Pending} {hand : Multiset Hand} {peer : SockAddr}
  {id : UInt64}

/-- The request becomes the receive. -/
theorem openRx (hhand : b.hand = .rts p.peer p.peerId ::ₘ hand) (htype : p.type = .rndzvRx)
    (log : Multiset Event) (cur : Option UInt64) : Moves lossy self b { b.drawn with
      pending := p ::ₘ b.pending, log := log, hand := hand, cur := cur } := by
  refine .of_eq (fun s i => ?_)
  have hmove := countP_exchange (P := Hand.Carries self s i) (Q := Pending.Carries s i)
    (x := .rts p.peer p.peerId) (y := p) ⟨fun h => ⟨htype, h⟩, fun h => h.2⟩ hand b.pending
  have hsends := Multiset.countP_cons_of_neg b.pending
    (not_sends_of_type (by rw [htype]; decide) self s i)
  unfold tokens sends drawn
  dsimp only
  rw [hhand, hsends]
  omega

/-- A send comes with its token, the request. -/
theorem openTx (htype : p.type = .rndzvTx) (log : Multiset Event) :
    Moves lossy self b { b.drawn with
      pending := p ::ₘ b.pending, sent := .rts p.id ::ₘ b.sent, log := log } := by
  refine .of_eq (fun s i => ?_)
  have hmove := countP_exchange (P := Ctl.Carries self s i) (Q := Pending.Sends self s i)
    (x := .rts p.id) (y := p) ⟨fun h => ⟨htype, h⟩, fun h => h.2⟩ b.sent b.pending
  have hcarries := Multiset.countP_cons_of_neg b.pending
    (not_carries_of_type (by rw [htype]; decide) s i)
  unfold tokens sends drawn
  dsimp only
  rw [hcarries]
  omega

/-- The receive becomes the `FIN` it owes. -/
theorem finalize (hp : b.pending = p ::ₘ ps) (htype : p.type = .rndzvRx)
    (log : Multiset Event) (cur : Option UInt64) : Moves lossy self b { b with
      pending := ps, log := log, hand := .owe p.peer p.peerId ::ₘ b.hand, cur := cur } := by
  refine .of_eq (fun s i => ?_)
  have hmove := countP_exchange (P := Pending.Carries s i) (Q := Hand.Carries self s i)
    (x := p) (y := .owe p.peer p.peerId) ⟨fun h => h.2, fun h => ⟨htype, h⟩⟩ ps b.hand
  have hsends := Multiset.countP_cons_of_neg ps
    (not_sends_of_type (by rw [htype]; decide) self s i)
  unfold tokens sends
  dsimp only
  rw [hp, hsends]
  omega

theorem sendFin (hhand : b.hand = .owe peer id ::ₘ hand) :
    Moves lossy self b { b with sent := .fin peer id ::ₘ b.sent, hand := hand } := by
  refine .of_eq (fun s i => ?_)
  have hmove := countP_exchange (P := Hand.Carries self s i) (Q := Ctl.Carries self s i)
    (x := .owe peer id) (y := .fin peer id) Iff.rfl hand b.sent
  unfold tokens sends
  dsimp only
  rw [hhand]
  omega

theorem parkFin (hhand : b.hand = .owe peer id ::ₘ hand) :
    Moves lossy self b { b with parked := .fin peer id ::ₘ b.parked, hand := hand } := by
  refine .of_eq (fun s i => ?_)
  have hmove := countP_exchange (P := Hand.Carries self s i) (Q := (· = Deferred.fin s i))
    (x := .owe peer id) (y := .fin peer id) (by rw [Deferred.fin.injEq]; exact Iff.rfl) hand
    b.parked
  unfold tokens sends
  dsimp only
  rw [hhand]
  omega

theorem retryFin {ds : Multiset Deferred} (hd : b.parked = .fin peer id ::ₘ ds) :
    Moves lossy self b { b with parked := ds, hand := .owe peer id ::ₘ b.hand } := by
  refine .of_eq (fun s i => ?_)
  have hmove := countP_exchange (P := (· = Deferred.fin s i)) (Q := Hand.Carries self s i)
    (x := .fin peer id) (y := .owe peer id) (by rw [Deferred.fin.injEq]; exact Iff.rfl) ds
    b.hand
  unfold tokens sends
  dsimp only
  rw [hd]
  omega

/-- A `FIN` or a request in hand is lost. -/
theorem lose {x : Hand} (hlossy : lossy) (hhand : b.hand = x ::ₘ hand) (log : Multiset Event) :
    Moves lossy self b { b with log := log, hand := hand } := by
  refine fun s i => ⟨?_, fun h => absurd hlossy h⟩
  have hless := Multiset.countP_le_of_le (Hand.Carries self s i) (Multiset.le_cons_self hand x)
  unfold tokens sends
  dsimp only
  rw [hhand]
  omega

/-- The send goes with its token, the `FIN`. -/
theorem finIn (hhand : b.hand = .fin p.id ::ₘ hand) (hp : b.pending = p ::ₘ ps)
    (htype : p.type = .rndzvTx) (log : Multiset Event) :
    Moves lossy self b { b with pending := ps, log := log, hand := hand } := by
  refine .of_eq (fun s i => ?_)
  have hmove := countP_exchange (P := Hand.Carries self s i) (Q := Pending.Sends self s i)
    (x := .fin p.id) (y := p) ⟨fun h => ⟨htype, h⟩, fun h => h.2⟩ hand ps
  have hcarries := Multiset.countP_cons_of_neg ps
    (not_carries_of_type (by rw [htype]; decide) s i)
  unfold tokens sends
  dsimp only
  rw [hhand, hp, hcarries]
  omega

theorem enqueue (hhand : b.hand = .rts peer id ::ₘ hand) :
    Moves lossy self b { b with queue := (peer, id) ::ₘ b.queue, hand := hand } := by
  refine .of_eq (fun s i => ?_)
  have hmove := countP_exchange (P := Hand.Carries self s i) (Q := (· = (s, i)))
    (x := .rts peer id) (y := (peer, id)) (by rw [Prod.mk.injEq]; exact Iff.rfl) hand b.queue
  unfold tokens sends
  dsimp only
  rw [hhand]
  omega

theorem take {queue : Multiset (SockAddr × UInt64)} (hqueue : b.queue = (peer, id) ::ₘ queue) :
    Moves lossy self b { b with queue := queue, hand := .rts peer id ::ₘ b.hand } := by
  refine .of_eq (fun s i => ?_)
  have hmove := countP_exchange (P := (· = (s, i))) (Q := Hand.Carries self s i)
    (x := (peer, id)) (y := .rts peer id) (by rw [Prod.mk.injEq]; exact Iff.rfl) queue b.hand
  unfold tokens sends
  dsimp only
  rw [hqueue]
  omega

theorem refuse (hhand : b.hand = .rts peer id ::ₘ hand) :
    Moves lossy self b { b with hand := .owe peer id ::ₘ hand } := by
  refine .of_eq (fun s i => ?_)
  have hmove := countP_exchange (P := Hand.Carries self s i) (Q := Hand.Carries self s i)
    (x := .rts peer id) (y := .owe peer id) Iff.rfl hand hand
  unfold tokens sends
  dsimp only
  rw [hhand]
  omega

end Moves

/-- A `FIN` in hand is the token of a pending send, so the search finds the send. -/
theorem exists_send_of_fin {id : UInt64} {hand : Multiset Hand} (hhand : b.hand = .fin id ::ₘ hand)
    (hfin : b.tokens self self id ≤ b.sends self self id) :
    ∃ p ∈ b.pending, p.type = .rndzvTx ∧ p.id = id := by
  have htoken : 0 < b.tokens self self id := by
    have hpos : 0 < b.hand.countP (Hand.Carries self self id) :=
      Multiset.countP_pos.mpr ⟨.fin id, by rw [hhand]; exact Multiset.mem_cons_self _ _, rfl, rfl⟩
    unfold tokens
    omega
  obtain ⟨p, hp, htype, -, hid⟩ := Multiset.countP_pos.mp (htoken.trans_le hfin)
  exact ⟨p, hp, htype, hid⟩

/-- **Every rule moves tokens**, if no more `FIN`s are in hand than sends are
pending. -/
theorem Rule.moves (h : Rule lossy reports b b')
    (hfin : ∀ i, b.tokens self self i ≤ b.sends self self i) : Moves lossy self b b' := by
  cases h with
  | draw hids => exact .of_eq (fun s i => rfl)
  | openRx truncated hids hcur hhand hid htype hzero herror => exact .openRx hhand htype _ _
  | openRma hids hcur hid htype hzero => exact .other htype (.inl rfl) rfl rfl rfl rfl
  | openTx hids hid htype => exact .openTx htype _
  | issue op hp hcur howner hbound hsame hrem hdef herror =>
    exact .update hp rfl hsame rfl rfl rfl (fun _ _ => rfl)
  | park d hp hcur howner hbound hsame hrem hdef herror =>
    exact .update hp rfl hsame rfl rfl rfl
      (fun s i => howner.countP_fin s i b.parked)
  | fail hp hcur htype hsame hrem hdef herror =>
    exact .update hp rfl hsame rfl rfl rfl (fun _ _ => rfl)
  | ack ok hp hop hcur howner hsame hrem hdef herror =>
    exact .update hp rfl hsame rfl rfl rfl (fun _ _ => rfl)
  | reissue op hp hd hcur howner howner' hsame hrem hdef herror =>
    exact .update hp rfl hsame rfl rfl rfl (fun s i => hd ▸ (howner.countP_fin s i _).symm)
  | failParked hp hd hcur howner hsame hrem hdef herror =>
    exact .update hp rfl hsame rfl rfl rfl (fun s i => hd ▸ (howner.countP_fin s i _).symm)
  | settle hp hcur hlive => exact .of_eq (fun s i => rfl)
  | cutShort hp hcur htype hsame hrem =>
    exact .update hp rfl hsame rfl rfl rfl (fun _ _ => rfl)
  | finalize cqes hp hcur htype hzero hreport => exact .finalize hp htype _ _
  | endRma hp hcur htype hzero => exact .other htype (.inr hp) rfl rfl rfl rfl
  | sendFin hhand => exact .sendFin hhand
  | parkFin hhand => exact .parkFin hhand
  | loseFin hlossy hhand => exact .lose hlossy hhand _
  | retryFin hd => exact .retryFin hd
  | finIn hhand hp htype => exact .finIn hhand hp htype _
  | stray hhand hnone =>
    obtain ⟨p, hp, htype, hid⟩ := exists_send_of_fin hhand (hfin _)
    exact absurd hid (hnone p hp htype)
  | enqueue hhand => exact .enqueue hhand
  | take hqueue => exact .take hqueue
  | refuse hhand => exact .refuse hhand
  | drop hlossy hhand => exact .lose hlossy hhand b.log

/-- **So does every call.** -/
theorem Sim.moves (h : Sim lossy reports b b')
    (hfin : ∀ i, b.tokens self self i ≤ b.sends self self i) : Moves lossy self b b' := by
  induction h with
  | refl => exact .of_eq (fun s i => rfl)
  | @tail c d _ hrule ih =>
    have hmid : ∀ i, c.tokens self self i ≤ c.sends self self i := by
      intro i
      have hmoved := (ih self i).1
      have hold := hfin i
      omega
    exact ih.trans (hrule.moves hmid)

end Book

/-! ## A net of books -/

namespace Net

variable {ι : Type} [Fintype ι] [DecidableEq ι]

/-- The tokens of a send in a net. -/
def tokens (addr : ι → SockAddr) (bs : ι → Book) (s : SockAddr) (i : UInt64) : ℕ :=
  ∑ j, (bs j).tokens (addr j) s i

/-- The sends pending under an address and an id. -/
def sends (addr : ι → SockAddr) (bs : ι → Book) (s : SockAddr) (i : UInt64) : ℕ :=
  ∑ j, (bs j).sends (addr j) s i

/-- **Every pending send has its token** – or, if tokens may be lost, at most
one – and every token has its send. -/
def Balanced (lossy : Prop) (addr : ι → SockAddr) (bs : ι → Book) : Prop :=
  ∀ s i, tokens addr bs s i ≤ sends addr bs s i
    ∧ (¬ lossy → tokens addr bs s i = sends addr bs s i)

variable {addr : ι → SockAddr} {bs bs' : ι → Book} {lossy reports : Prop}

/-- A sum over a net, when one endpoint's books change. -/
theorem sum_update (f : ι → Book → ℕ) (bs : ι → Book) (j : ι) (b : Book) :
    ∑ k, f k (Function.update bs j b k) + f j (bs j) = ∑ k, f k (bs k) + f j b := by
  have hothers : ∑ k ∈ Finset.univ.erase j, f k (Function.update bs j b k)
      = ∑ k ∈ Finset.univ.erase j, f k (bs k) := by
    refine Finset.sum_congr rfl (fun k hk => ?_)
    rw [Function.update_of_ne (Finset.ne_of_mem_erase hk)]
  rw [← Finset.add_sum_erase _ _ (Finset.mem_univ j), hothers, Function.update_self,
    ← Finset.add_sum_erase _ (fun k => f k (bs k)) (Finset.mem_univ j)]
  omega

omit [DecidableEq ι] in
/-- Only the endpoint at an address has sends under it. -/
theorem sends_self (haddr : Function.Injective addr) (bs : ι → Book) (j : ι) (i : UInt64) :
    sends addr bs (addr j) i = (bs j).sends (addr j) (addr j) i := by
  refine Finset.sum_eq_single j (fun k _ hk => ?_) (fun h => absurd (Finset.mem_univ j) h)
  refine Multiset.countP_eq_zero.mpr (fun p _ hp => ?_)
  exact hk (haddr hp.2.1)

namespace Balanced

omit [DecidableEq ι] in
/-- An endpoint holds no more tokens of its own sends than it has sends. -/
theorem own (h : Balanced lossy addr bs) (haddr : Function.Injective addr) (j : ι) (i : UInt64) :
    (bs j).tokens (addr j) (addr j) i ≤ (bs j).sends (addr j) (addr j) i := by
  rw [← sends_self haddr]
  refine le_trans ?_ (h (addr j) i).1
  exact Finset.single_le_sum (f := fun k => (bs k).tokens (addr k) (addr j) i)
    (fun _ _ => Nat.zero_le _) (Finset.mem_univ j)

/-- **A call at one endpoint keeps the balance.** -/
theorem step (h : Balanced lossy addr bs) (haddr : Function.Injective addr) {j : ι} {b : Book}
    (hsim : Book.Sim lossy reports (bs j) b) : Balanced lossy addr (Function.update bs j b) := by
  intro s i
  obtain ⟨hle, heq⟩ := Book.Sim.moves hsim (h.own haddr j) s i
  obtain ⟨hle₀, heq₀⟩ := h s i
  have htokens := sum_update (fun k b => b.tokens (addr k) s i) bs j b
  have hsends := sum_update (fun k b => b.sends (addr k) s i) bs j b
  unfold tokens sends at hle₀ heq₀ ⊢
  refine ⟨by omega, fun hlossy => ?_⟩
  have heq := heq hlossy
  have heq₀ := heq₀ hlossy
  omega

/-- **What was sent arrives**: a request or a `FIN` on its way from one endpoint is
now in the hand of another. -/
theorem deliver (h : Balanced lossy addr bs) {j k : ι} {c : Ctl} {sent : Multiset Ctl}
    (hsent : (bs j).sent = c ::ₘ sent) (hdst : ∀ peer id, c = .fin peer id → peer = addr k)
    {bs₁ : ι → Book} (hbs₁ : bs₁ = Function.update bs j { bs j with sent := sent }) :
    Balanced lossy addr (Function.update bs₁ k
      { bs₁ k with hand := c.hand (addr j) ::ₘ (bs₁ k).hand }) := by
  intro s i
  obtain ⟨hle, heq⟩ := h s i
  have htokens := sum_update (fun k b => b.tokens (addr k) s i) bs j { bs j with sent := sent }
  have hsends := sum_update (fun k b => b.sends (addr k) s i) bs j { bs j with sent := sent }
  have htokens₁ := sum_update (fun k b => b.tokens (addr k) s i) bs₁ k
    { bs₁ k with hand := c.hand (addr j) ::ₘ (bs₁ k).hand }
  have hsends₁ := sum_update (fun k b => b.sends (addr k) s i) bs₁ k
    { bs₁ k with hand := c.hand (addr j) ::ₘ (bs₁ k).hand }
  have hmove := Book.countP_exchange (P := Ctl.Carries (addr j) s i)
    (Q := Hand.Carries (addr k) s i) (c.carries_hand hdst s i) sent (bs₁ k).hand
  rw [← hbs₁] at htokens hsends
  unfold tokens sends at hle heq ⊢
  unfold Book.tokens Book.sends at *
  rw [hsent] at htokens
  dsimp only at *
  refine ⟨by omega, fun hlossy => ?_⟩
  have heq := heq hlossy
  omega

/-- What was sent is lost. -/
theorem lose (h : Balanced lossy addr bs) (hlossy : lossy) {j : ι} {sent : Multiset Ctl}
    (hsent : sent ≤ (bs j).sent) :
    Balanced lossy addr (Function.update bs j { bs j with sent := sent }) := by
  intro s i
  refine ⟨?_, fun hnot => absurd hlossy hnot⟩
  have hle := (h s i).1
  have htokens := sum_update (fun k b => b.tokens (addr k) s i) bs j { bs j with sent := sent }
  have hsends := sum_update (fun k b => b.sends (addr k) s i) bs j { bs j with sent := sent }
  have hless := Multiset.countP_le_of_le (Ctl.Carries (addr j) s i) hsent
  unfold tokens sends at hle ⊢
  unfold Book.tokens Book.sends at *
  dsimp only at *
  omega

end Balanced

end Net
