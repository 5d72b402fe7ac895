import RdsProv.Book.Rules

/-!
# The books balance

`Book.Ok` is the invariant that ties the counters of a pending operation to what
is in flight and parked under its id. The generic lemmas say what keeps it when
one operation changes, is opened, ends, or none is touched; each rule is one of
these (`Book.Ok.rule`).
-/

namespace Book

/-- **The books balance.** Ids are distinct, non-zero and were given out; whatever
is in flight or parked has an owner; the counters of an operation count what it
owns; and a receive that is not being worked on waits for something. -/
structure Ok (b : Book) : Prop where
  counter : b.opId.toNat = b.idsGiven
  nodup : (b.pending.map Pending.id).Nodup
  range : ∀ p ∈ b.pending, 0 < p.id.toNat ∧ p.id.toNat ≤ b.idsGiven
  owned : ∀ op ∈ b.inflight, ∃ p ∈ b.pending, op.Owner p
  parkedOwned : ∀ d ∈ b.parked, d.readId? ≠ none → ∃ p ∈ b.pending, d.Owner p
  remaining : ∀ p ∈ b.pending, p.type ≠ .rndzvTx → p.segRemaining.toNat = b.outstanding p.id
  deferred : ∀ p ∈ b.pending, p.type = .rndzvRx → p.segDeferred.toNat = b.parkedReads p.id
  bounded : ∀ p ∈ b.pending, p.type = .rndzvRx →
    p.segRemaining.toNat + p.segDeferred.toNat < 2 ^ 32
  live : ∀ p ∈ b.pending, p.type = .rndzvRx → b.cur ≠ some p.id →
    p.segRemaining ≠ 0 ∨ p.segDeferred ≠ 0

/-- Before the counter wraps, the next id is the next number. -/
theorem toNat_succId {opId : UInt64} (h : opId.toNat + 1 < 2 ^ 64) :
    (succId opId).toNat = opId.toNat + 1 := by
  have hadd : (opId + 1).toNat = opId.toNat + 1 := by
    rw [UInt64.toNat_add]
    exact Nat.mod_eq_of_lt h
  have hne : opId + 1 ≠ 0 := by
    intro h0
    rw [h0] at hadd
    exact absurd hadd (Nat.succ_ne_zero _).symm
  rw [succId, if_pos hne, hadd]

/-- What a pending operation owns came or went, and nothing else of what is counted. -/
structure Turnover {α : Type} (own : α → Prop) (counts : UInt64 → α → Prop)
    [∀ i, DecidablePred (counts i)] (id : UInt64) (l l' : Multiset α) : Prop where
  owned : ∀ x ∈ l', x ∈ l ∨ own x
  others : ∀ i, i ≠ id → l'.countP (counts i) = l.countP (counts i)

namespace Turnover

variable {α : Type} {own : α → Prop} {counts : UInt64 → α → Prop} [∀ i, DecidablePred (counts i)]
  {id : UInt64} {l : Multiset α} {x : α}

theorem refl : Turnover own counts id l l := ⟨fun _ hx => .inl hx, fun _ _ => rfl⟩

theorem comes (hown : own x) (hid : ∀ i, counts i x → i = id) :
    Turnover own counts id l (x ::ₘ l) where
  owned y hy := by
    rcases Multiset.mem_cons.mp hy with rfl | hy
    · exact .inr hown
    · exact .inl hy
  others i hi := Multiset.countP_cons_of_neg l (mt (hid i) hi)

theorem goes (hid : ∀ i, counts i x → i = id) : Turnover own counts id (x ::ₘ l) l where
  owned _ hy := .inl (Multiset.mem_cons_of_mem hy)
  others i hi := (Multiset.countP_cons_of_neg l (mt (hid i) hi)).symm

end Turnover

/-- What is in flight changed for one operation. -/
abbrev Flies (p : Pending) : Multiset RdmaOp → Multiset RdmaOp → Prop :=
  Turnover (·.Owner p) (fun i op => op.token = i) p.id

/-- What is parked changed for one operation. -/
abbrev Parks (p : Pending) : Multiset Deferred → Multiset Deferred → Prop :=
  Turnover (·.Owner p) (fun i d => d.readId? = some i) p.id

namespace Ok

variable {b b' : Book} {p q : Pending} {ps : Multiset Pending}

/-- An id names one operation. -/
theorem eq_of_id (h : b.Ok) (hp : p ∈ b.pending) (hq : q ∈ b.pending) (hid : p.id = q.id) :
    p = q :=
  Multiset.inj_on_of_nodup_map h.nodup p hp q hq hid

/-- The other operations have other ids. -/
theorem id_ne (h : b.Ok) (hp : b.pending = p ::ₘ ps) (hq : q ∈ ps) : q.id ≠ p.id := by
  have hnodup := h.nodup
  rw [hp, Multiset.map_cons, Multiset.nodup_cons] at hnodup
  intro hid
  exact hnodup.1 (hid ▸ Multiset.mem_map_of_mem Pending.id hq)

/-- The owner of what carries an operation's id is the operation. -/
theorem owner_eq (h : b.Ok) {op : RdmaOp} (hop : op ∈ b.inflight) (hp : p ∈ b.pending)
    (hid : op.token = p.id) : op.Owner p := by
  obtain ⟨q, hq, howner⟩ := h.owned op hop
  rw [h.eq_of_id hp hq (hid.symm.trans howner.1.symm)]
  exact howner

theorem parkedOwner_eq (h : b.Ok) {d : Deferred} (hd : d ∈ b.parked) (hp : p ∈ b.pending)
    (hid : d.readId? = some p.id) : d.Owner p := by
  obtain ⟨q, hq, howner⟩ := h.parkedOwned d hd (by rw [hid]; simp)
  have hqid : q.id = p.id := Option.some.inj (howner.readId?.symm.trans hid)
  rw [h.eq_of_id hp hq hqid.symm]
  exact howner

/-- A new id is a new number. -/
theorem toNat_id (h : b.Ok) (hids : b.idsGiven + 1 < 2 ^ 64) (hid : p.id = succId b.opId) :
    p.id.toNat = b.idsGiven + 1 := by
  rw [hid, toNat_succId (by rw [h.counter]; exact hids), h.counter]

/-- An operation that is waited for is counted. -/
theorem outstanding_pos (h : b.Ok) {op : RdmaOp} (hop : op ∈ b.inflight) (hp : p ∈ b.pending)
    (howner : op.Owner p) : 0 < p.segRemaining.toNat := by
  rw [h.remaining p hp howner.type_ne]
  exact Multiset.countP_pos.mpr ⟨op, hop, howner.1.symm⟩

theorem parkedReads_pos (h : b.Ok) {d : Deferred} (hd : d ∈ b.parked) (hp : p ∈ b.pending)
    (howner : d.Owner p) : 0 < p.segDeferred.toNat := by
  rw [h.deferred p hp howner.type_eq]
  exact Multiset.countP_pos.mpr ⟨d, hd, howner.readId?⟩

/-- **What keeps the books when one operation changes**: what is added in flight or
parked is its own, its counters follow, and it still waits for something or is
the one being worked on. -/
theorem update (h : b.Ok) (hp : b.pending = p ::ₘ ps) (hp' : b'.pending = q ::ₘ ps)
    (hsame : p.Same q) (hopId : b'.opId = b.opId) (hids : b'.idsGiven = b.idsGiven)
    (hflies : Flies p b.inflight b'.inflight) (hparks : Parks p b.parked b'.parked)
    (hrem : p.type ≠ .rndzvTx → q.segRemaining.toNat = b'.outstanding p.id)
    (hdef : p.type = .rndzvRx → q.segDeferred.toNat = b'.parkedReads p.id)
    (hbound : p.type = .rndzvRx → q.segRemaining.toNat + q.segDeferred.toNat < 2 ^ 32)
    (hcur : b.cur = none ∨ b.cur = some p.id)
    (hlive : p.type = .rndzvRx → b'.cur ≠ some p.id → q.segRemaining ≠ 0 ∨ q.segDeferred ≠ 0) :
    b'.Ok := by
  have hmem : p ∈ b.pending := hp ▸ Multiset.mem_cons_self p ps
  have hrest : ∀ r ∈ ps, r ∈ b.pending := fun r hr => hp ▸ Multiset.mem_cons_of_mem hr
  have hcases : ∀ r ∈ b'.pending, r = q ∨ r ∈ ps := fun r hr => by
    rw [hp'] at hr
    exact Multiset.mem_cons.mp hr
  -- an owner in the old book has a successor in the new one
  have hsucc : ∀ r ∈ b.pending, ∃ r' ∈ b'.pending, r.Same r' := fun r hr => by
    rw [hp] at hr
    rw [hp']
    rcases Multiset.mem_cons.mp hr with rfl | hr
    · exact ⟨q, Multiset.mem_cons_self q ps, hsame⟩
    · exact ⟨r, Multiset.mem_cons_of_mem hr, .refl r⟩
  refine ⟨by rw [hopId, hids, h.counter], ?_, ?_, ?_, ?_, ?_, ?_, ?_, ?_⟩
  · have hnodup := h.nodup
    rw [hp, Multiset.map_cons] at hnodup
    rw [hp', Multiset.map_cons, hsame.id]
    exact hnodup
  · intro r hr
    rw [hids]
    rcases hcases r hr with rfl | hr
    · rw [hsame.id]
      exact h.range p hmem
    · exact h.range r (hrest r hr)
  · intro op hop
    rcases hflies.owned op hop with hop | howner
    · obtain ⟨r, hr, howner⟩ := h.owned op hop
      obtain ⟨r', hr', hrr'⟩ := hsucc r hr
      exact ⟨r', hr', howner.same hrr'⟩
    · obtain ⟨r', hr', hrr'⟩ := hsucc p hmem
      exact ⟨r', hr', howner.same hrr'⟩
  · intro d hd hread
    rcases hparks.owned d hd with hd | howner
    · obtain ⟨r, hr, howner⟩ := h.parkedOwned d hd hread
      obtain ⟨r', hr', hrr'⟩ := hsucc r hr
      exact ⟨r', hr', howner.same hrr'⟩
    · obtain ⟨r', hr', hrr'⟩ := hsucc p hmem
      exact ⟨r', hr', howner.same hrr'⟩
  · intro r hr htype
    rcases hcases r hr with rfl | hr
    · rw [hsame.id]
      exact hrem (hsame.type ▸ htype)
    · exact (h.remaining r (hrest r hr) htype).trans (hflies.others r.id (h.id_ne hp hr)).symm
  · intro r hr htype
    rcases hcases r hr with rfl | hr
    · rw [hsame.id]
      exact hdef (hsame.type ▸ htype)
    · exact (h.deferred r (hrest r hr) htype).trans (hparks.others r.id (h.id_ne hp hr)).symm
  · intro r hr htype
    rcases hcases r hr with rfl | hr
    · exact hbound (hsame.type ▸ htype)
    · exact h.bounded r (hrest r hr) htype
  · intro r hr htype hne
    rcases hcases r hr with rfl | hr
    · exact hlive (hsame.type ▸ htype) (hsame.id ▸ hne)
    · refine h.live r (hrest r hr) htype ?_
      rcases hcur with hcur | hcur
      · rw [hcur]
        simp
      · rw [hcur]
        intro hid
        exact h.id_ne hp hr (Option.some.inj hid).symm

/-- The next id is no pending operation's. -/
theorem fresh (h : b.Ok) (hids : b.idsGiven + 1 < 2 ^ 64) :
    ∀ r ∈ b.pending, r.id ≠ succId b.opId := by
  intro r hr heq
  have hrange := (h.range r hr).2
  rw [h.toNat_id hids heq] at hrange
  exact absurd hrange (Nat.not_succ_le_self _)

/-- **What keeps the books when an operation is opened** under a new id. -/
theorem add (h : b.Ok) (hids : b.idsGiven + 1 < 2 ^ 64) (hid : p.id = succId b.opId)
    (hp' : b'.pending = p ::ₘ b.pending) (hopId : b'.opId = succId b.opId)
    (hids' : b'.idsGiven = b.idsGiven + 1) (hin : b'.inflight = b.inflight)
    (hpark : b'.parked = b.parked) (hrem : p.type ≠ .rndzvTx → p.segRemaining = 0)
    (hdef : p.type = .rndzvRx → p.segDeferred = 0) (hcur : b.cur = none ∨ b'.cur = b.cur)
    (hcur' : p.type = .rndzvRx → b'.cur = some p.id) : b'.Ok := by
  have hnum := h.toNat_id hids hid
  have hfresh : ∀ r ∈ b.pending, r.id ≠ p.id := hid ▸ h.fresh hids
  have hcases : ∀ r ∈ b'.pending, r = p ∨ r ∈ b.pending := fun r hr => by
    rw [hp'] at hr
    exact Multiset.mem_cons.mp hr
  have hrest : ∀ r ∈ b.pending, r ∈ b'.pending := fun r hr => hp' ▸ Multiset.mem_cons_of_mem hr
  have hout : b'.outstanding p.id = 0 := by
    refine Multiset.countP_eq_zero.mpr (fun op hop htoken => ?_)
    rw [hin] at hop
    obtain ⟨r, hr, howner⟩ := h.owned op hop
    exact hfresh r hr (howner.1.trans htoken)
  have hreads : b'.parkedReads p.id = 0 := by
    refine Multiset.countP_eq_zero.mpr (fun d hd hread => ?_)
    rw [hpark] at hd
    obtain ⟨r, hr, howner⟩ := h.parkedOwned d hd (by rw [hread]; simp)
    exact hfresh r hr (Option.some.inj (howner.readId?.symm.trans hread))
  refine ⟨?_, ?_, ?_, ?_, ?_, ?_, ?_, ?_, ?_⟩
  · rw [hopId, hids', ← hid, hnum]
  · rw [hp', Multiset.map_cons, Multiset.nodup_cons]
    refine ⟨fun hmem => ?_, h.nodup⟩
    obtain ⟨r, hr, hrid⟩ := Multiset.mem_map.mp hmem
    exact hfresh r hr hrid
  · intro r hr
    rw [hids']
    rcases hcases r hr with rfl | hr
    · omega
    · have hrange := h.range r hr
      omega
  · intro op hop
    rw [hin] at hop
    obtain ⟨r, hr, howner⟩ := h.owned op hop
    exact ⟨r, hrest r hr, howner⟩
  · intro d hd hread
    rw [hpark] at hd
    obtain ⟨r, hr, howner⟩ := h.parkedOwned d hd hread
    exact ⟨r, hrest r hr, howner⟩
  · intro r hr htype
    rcases hcases r hr with rfl | hr
    · rw [hrem htype, hout]
      rfl
    · rw [outstanding, hin]
      exact h.remaining r hr htype
  · intro r hr htype
    rcases hcases r hr with rfl | hr
    · rw [hdef htype, hreads]
      rfl
    · rw [parkedReads, hpark]
      exact h.deferred r hr htype
  · intro r hr htype
    rcases hcases r hr with rfl | hr
    · rw [hrem (by rw [htype]; decide), hdef htype]
      decide
    · exact h.bounded r hr htype
  · intro r hr htype hne
    rcases hcases r hr with rfl | hr
    · exact absurd (hcur' htype) hne
    · refine h.live r hr htype ?_
      rcases hcur with hcur | hcur
      · rw [hcur]
        simp
      · rw [← hcur]
        exact hne

/-- Drawing an id keeps the books. -/
theorem drawn (h : b.Ok) (hids : b.idsGiven + 1 < 2 ^ 64) : b.drawn.Ok := by
  refine ⟨?_, h.nodup, fun p hp => ?_, h.owned, h.parkedOwned, h.remaining, h.deferred,
    h.bounded, h.live⟩
  · show (succId b.opId).toNat = b.idsGiven + 1
    rw [toNat_succId (by rw [h.counter]; exact hids), h.counter]
  · have hrange := h.range p hp
    exact ⟨hrange.1, Nat.le_succ_of_le hrange.2⟩

/-- **What keeps the books when an operation ends**: nothing of its own is left. -/
theorem remove (h : b.Ok) (hp : b.pending = p ::ₘ ps) (hp' : b'.pending = ps)
    (hopId : b'.opId = b.opId) (hids : b'.idsGiven = b.idsGiven)
    (hin : b'.inflight = b.inflight) (hpark : b'.parked = b.parked)
    (hnone : ∀ op ∈ b.inflight, ¬ op.Owner p) (hnone' : ∀ d ∈ b.parked, ¬ d.Owner p)
    (hcur : b.cur = some p.id ∨ b'.cur = b.cur) : b'.Ok := by
  have hrest : ∀ r ∈ b'.pending, r ∈ b.pending := fun r hr =>
    hp ▸ Multiset.mem_cons_of_mem (hp' ▸ hr)
  have hother : ∀ r ∈ b.pending, r = p ∨ r ∈ b'.pending := fun r hr => by
    rw [hp] at hr
    rw [hp']
    exact Multiset.mem_cons.mp hr
  refine ⟨by rw [hopId, hids, h.counter], ?_, ?_, ?_, ?_, ?_, ?_, ?_, ?_⟩
  · have hnodup := h.nodup
    rw [hp, Multiset.map_cons] at hnodup
    rw [hp']
    exact hnodup.of_cons
  · intro r hr
    rw [hids]
    exact h.range r (hrest r hr)
  · intro op hop
    rw [hin] at hop
    obtain ⟨r, hr, howner⟩ := h.owned op hop
    rcases hother r hr with rfl | hr
    · exact absurd howner (hnone op hop)
    · exact ⟨r, hr, howner⟩
  · intro d hd hread
    rw [hpark] at hd
    obtain ⟨r, hr, howner⟩ := h.parkedOwned d hd hread
    rcases hother r hr with rfl | hr
    · exact absurd howner (hnone' d hd)
    · exact ⟨r, hr, howner⟩
  · intro r hr htype
    rw [outstanding, hin]
    exact h.remaining r (hrest r hr) htype
  · intro r hr htype
    rw [parkedReads, hpark]
    exact h.deferred r (hrest r hr) htype
  · intro r hr htype
    exact h.bounded r (hrest r hr) htype
  · intro r hr htype hne
    refine h.live r (hrest r hr) htype ?_
    rcases hcur with hcur | hcur
    · rw [hcur]
      intro hid
      rw [hp'] at hr
      exact h.id_ne hp hr (Option.some.inj hid).symm
    · rw [← hcur]
      exact hne

/-- **What keeps the books when no operation changes**: only `FIN`s are parked or
leave the queue. -/
theorem keep (h : b.Ok) (hp : b'.pending = b.pending) (hopId : b'.opId = b.opId)
    (hids : b'.idsGiven = b.idsGiven) (hin : b'.inflight = b.inflight)
    (hpark : ∀ d ∈ b'.parked, d.readId? ≠ none → d ∈ b.parked)
    (hreads : ∀ i, b'.parkedReads i = b.parkedReads i) (hcur : b'.cur = b.cur) : b'.Ok := by
  refine ⟨by rw [hopId, hids, h.counter], hp ▸ h.nodup, ?_, ?_, ?_, ?_, ?_, ?_, ?_⟩
  · rw [hp, hids]
    exact h.range
  · rw [hp, hin]
    exact h.owned
  · intro d hd hread
    rw [hp]
    exact h.parkedOwned d (hpark d hd hread) hread
  · intro r hr htype
    rw [outstanding, hin]
    exact h.remaining r (hp ▸ hr) htype
  · intro r hr htype
    rw [hreads]
    exact h.deferred r (hp ▸ hr) htype
  · rw [hp]
    exact h.bounded
  · rw [hp, hcur]
    exact h.live

end Ok

/-! ### The rules -/

/-- A counter that is not at its limit goes up by one. -/
theorem toNat_add_one {n : UInt32} (h : n.toNat + 1 < 2 ^ 32) : (n + 1).toNat = n.toNat + 1 := by
  rw [UInt32.toNat_add]
  exact Nat.mod_eq_of_lt h

/-- A counter that is not at zero goes down by one. -/
theorem toNat_sub_one {n : UInt32} (h : 0 < n.toNat) : (n - 1).toNat + 1 = n.toNat := by
  have hle : (1 : UInt32) ≤ n := UInt32.le_iff_toNat_le.mpr h
  rw [UInt32.toNat_sub_of_le n 1 hle]
  exact Nat.sub_add_cancel h

namespace Ok

variable {lossy reports : Prop} {b b' : Book} {p q : Pending} {ps : Multiset Pending}
  {op : RdmaOp} {ops : Multiset RdmaOp} {d : Deferred} {ds : Multiset Deferred}

/-- What carries an operation's id is one more, or one fewer, with it. -/
theorem remaining_comes (h : b.Ok) (hp : p ∈ b.pending) (howner : op.Owner p)
    (hin : b'.inflight = op ::ₘ b.inflight)
    (hup : q.segRemaining.toNat = p.segRemaining.toNat + 1) :
    q.segRemaining.toNat = b'.outstanding p.id := by
  rw [outstanding, hin, Multiset.countP_cons, if_pos howner.1.symm, hup,
    h.remaining p hp howner.type_ne]
  rfl

theorem remaining_goes (h : b.Ok) (hp : p ∈ b.pending) (howner : op.Owner p)
    (hin : b.inflight = op ::ₘ b'.inflight)
    (hdown : q.segRemaining.toNat + 1 = p.segRemaining.toNat) :
    q.segRemaining.toNat = b'.outstanding p.id := by
  have hcount := h.remaining p hp howner.type_ne
  rw [outstanding, hin, Multiset.countP_cons, if_pos howner.1.symm, ← hdown] at hcount
  exact Nat.succ.inj hcount

theorem deferred_goes (h : b.Ok) (hp : p ∈ b.pending) (howner : d.Owner p)
    (hpark : b.parked = d ::ₘ b'.parked)
    (hdown : q.segDeferred.toNat + 1 = p.segDeferred.toNat) :
    q.segDeferred.toNat = b'.parkedReads p.id := by
  have hcount := h.deferred p hp howner.type_eq
  rw [parkedReads, hpark, Multiset.countP_cons, if_pos howner.readId?, ← hdown] at hcount
  exact Nat.succ.inj hcount

theorem issue (h : b.Ok) (hp : b.pending = p ::ₘ ps) (hcur : b.cur = some p.id)
    (howner : op.Owner p) (hbound : p.segRemaining.toNat + p.segDeferred.toNat + 1 < 2 ^ 32)
    (hsame : p.Same q) (hrem : q.segRemaining = p.segRemaining + 1)
    (hdef : q.segDeferred = p.segDeferred) :
    Ok { b with pending := q ::ₘ ps, inflight := op ::ₘ b.inflight } := by
  have hmem : p ∈ b.pending := hp ▸ Multiset.mem_cons_self p ps
  have hup : q.segRemaining.toNat = p.segRemaining.toNat + 1 := by
    rw [hrem]
    exact toNat_add_one (by omega)
  refine h.update hp rfl hsame rfl rfl (.comes howner howner.eq_id) .refl
    (fun _ => h.remaining_comes hmem howner rfl hup) (fun htype => ?_) (fun _ => ?_) (.inr hcur)
    (fun _ hne => absurd hcur hne)
  · rw [hdef]
    exact h.deferred p hmem htype
  · rw [hup, hdef]
    omega

theorem park (h : b.Ok) (hp : b.pending = p ::ₘ ps) (hcur : b.cur = some p.id)
    (howner : d.Owner p) (hbound : p.segRemaining.toNat + p.segDeferred.toNat + 1 < 2 ^ 32)
    (hsame : p.Same q) (hrem : q.segRemaining = p.segRemaining)
    (hdef : q.segDeferred = p.segDeferred + 1) :
    Ok { b with pending := q ::ₘ ps, parked := d ::ₘ b.parked } := by
  have hmem : p ∈ b.pending := hp ▸ Multiset.mem_cons_self p ps
  have hup : q.segDeferred.toNat = p.segDeferred.toNat + 1 := by
    rw [hdef]
    exact toNat_add_one (by omega)
  refine h.update hp rfl hsame rfl rfl .refl (.comes howner howner.eq_id) (fun htype => ?_)
    (fun htype => ?_) (fun _ => ?_) (.inr hcur) (fun _ hne => absurd hcur hne)
  · rw [hrem]
    exact h.remaining p hmem htype
  · rw [parkedReads, Multiset.countP_cons, if_pos howner.readId?, hup, h.deferred p hmem htype]
    rfl
  · rw [hup, hrem]
    omega

/-- The record changes in its error at most. -/
theorem restate (h : b.Ok) (hp : b.pending = p ::ₘ ps) (hcur : b.cur = some p.id)
    (hsame : p.Same q) (hrem : q.segRemaining = p.segRemaining)
    (hdef : p.type = .rndzvRx → q.segDeferred = p.segDeferred) (log : Multiset Event) :
    Ok { b with pending := q ::ₘ ps, log := log } := by
  have hmem : p ∈ b.pending := hp ▸ Multiset.mem_cons_self p ps
  refine h.update hp rfl hsame rfl rfl .refl .refl (fun htype => ?_) (fun htype => ?_)
    (fun htype => ?_) (.inr hcur) (fun _ hne => absurd hcur hne)
  · rw [hrem]
    exact h.remaining p hmem htype
  · rw [hdef htype]
    exact h.deferred p hmem htype
  · rw [hrem, hdef htype]
    exact h.bounded p hmem htype

theorem ack (h : b.Ok) (hp : b.pending = p ::ₘ ps) (hop : b.inflight = op ::ₘ ops)
    (hcur : b.cur = none) (howner : op.Owner p) (hsame : p.Same q)
    (hrem : q.segRemaining = p.segRemaining - 1) (hdef : q.segDeferred = p.segDeferred)
    (log : Multiset Event) :
    Ok { b with pending := q ::ₘ ps, inflight := ops, log := log, cur := some p.id } := by
  have hmem : p ∈ b.pending := hp ▸ Multiset.mem_cons_self p ps
  have hdown : q.segRemaining.toNat + 1 = p.segRemaining.toNat := by
    rw [hrem]
    exact toNat_sub_one (h.outstanding_pos (hop ▸ Multiset.mem_cons_self op ops) hmem howner)
  refine h.update hp rfl hsame rfl rfl (hop ▸ .goes howner.eq_id) .refl
    (fun _ => h.remaining_goes hmem howner hop hdown) (fun htype => ?_) (fun htype => ?_)
    (.inl hcur) (fun _ hne => absurd rfl hne)
  · rw [hdef]
    exact h.deferred p hmem htype
  · have hbound := h.bounded p hmem htype
    rw [hdef]
    omega

theorem reissue (h : b.Ok) (hp : b.pending = p ::ₘ ps) (hd : b.parked = d ::ₘ ds)
    (hcur : b.cur = none) (howner : d.Owner p) (howner' : op.Owner p) (hsame : p.Same q)
    (hrem : q.segRemaining = p.segRemaining + 1) (hdef : q.segDeferred = p.segDeferred - 1) :
    Ok { b with
      pending := q ::ₘ ps
      inflight := op ::ₘ b.inflight
      parked := ds
      cur := some p.id } := by
  have hmem : p ∈ b.pending := hp ▸ Multiset.mem_cons_self p ps
  have hbound := h.bounded p hmem howner.type_eq
  have hdown : q.segDeferred.toNat + 1 = p.segDeferred.toNat := by
    rw [hdef]
    exact toNat_sub_one (h.parkedReads_pos (hd ▸ Multiset.mem_cons_self d ds) hmem howner)
  have hup : q.segRemaining.toNat = p.segRemaining.toNat + 1 := by
    rw [hrem]
    exact toNat_add_one (by omega)
  exact h.update hp rfl hsame rfl rfl (.comes howner' howner'.eq_id) (hd ▸ .goes howner.eq_id)
    (fun _ => h.remaining_comes hmem howner' rfl hup)
    (fun _ => h.deferred_goes hmem howner hd hdown) (fun _ => by omega) (.inl hcur)
    (fun _ hne => absurd rfl hne)

theorem failParked (h : b.Ok) (hp : b.pending = p ::ₘ ps) (hd : b.parked = d ::ₘ ds)
    (hcur : b.cur = none) (howner : d.Owner p) (hsame : p.Same q)
    (hrem : q.segRemaining = p.segRemaining) (hdef : q.segDeferred = p.segDeferred - 1)
    (log : Multiset Event) :
    Ok { b with pending := q ::ₘ ps, parked := ds, log := log, cur := some p.id } := by
  have hmem : p ∈ b.pending := hp ▸ Multiset.mem_cons_self p ps
  have hbound := h.bounded p hmem howner.type_eq
  have hdown : q.segDeferred.toNat + 1 = p.segDeferred.toNat := by
    rw [hdef]
    exact toNat_sub_one (h.parkedReads_pos (hd ▸ Multiset.mem_cons_self d ds) hmem howner)
  refine h.update hp rfl hsame rfl rfl .refl (hd ▸ .goes howner.eq_id) (fun htype => ?_)
    (fun _ => h.deferred_goes hmem howner hd hdown) (fun _ => ?_) (.inl hcur)
    (fun _ hne => absurd rfl hne)
  · rw [hrem]
    exact h.remaining p hmem htype
  · rw [hrem]
    omega

theorem settle (h : b.Ok) (hp : b.pending = p ::ₘ ps) (hcur : b.cur = some p.id)
    (hlive : p.type = .rndzvRx → p.segRemaining ≠ 0 ∨ p.segDeferred ≠ 0) :
    Ok { b with cur := none } := by
  have hmem : p ∈ b.pending := hp ▸ Multiset.mem_cons_self p ps
  exact h.update hp hp (.refl p) rfl rfl .refl .refl (h.remaining p hmem) (h.deferred p hmem)
    (h.bounded p hmem) (.inr hcur) (fun htype _ => hlive htype)

/-- An operation that waits for nothing ends. -/
theorem finish (h : b.Ok) (hp : b.pending = p ::ₘ ps) (hcur : b.cur = some p.id)
    (hrem : p.segRemaining = 0) (hdef : p.type = .rndzvRx → p.segDeferred = 0)
    (log : Multiset Event) (hand : Multiset Hand) :
    Ok { b with pending := ps, log := log, hand := hand, cur := none } := by
  have hmem : p ∈ b.pending := hp ▸ Multiset.mem_cons_self p ps
  refine h.remove hp rfl rfl rfl rfl rfl (fun op hop howner => ?_) (fun d hd howner => ?_)
    (.inl hcur)
  · have hpos := h.outstanding_pos hop hmem howner
    rw [hrem] at hpos
    exact absurd hpos (Nat.lt_irrefl 0)
  · have hpos := h.parkedReads_pos hd hmem howner
    rw [hdef howner.type_eq] at hpos
    exact absurd hpos (Nat.lt_irrefl 0)

/-- What is sent, queued or in hand does not matter to the books. -/
theorem post (h : b.Ok) (sent : Multiset Ctl) (queue : Multiset (SockAddr × UInt64))
    (log : Multiset Event) (hand : Multiset Hand) :
    Ok { b with sent := sent, queue := queue, log := log, hand := hand } :=
  h.keep rfl rfl rfl rfl (fun _ hd _ => hd) (fun _ => rfl) rfl

theorem parkFin (h : b.Ok) (peer : SockAddr) (id : UInt64) (hand : Multiset Hand) :
    Ok { b with parked := .fin peer id ::ₘ b.parked, hand := hand } := by
  refine h.keep rfl rfl rfl rfl (fun d hd hread => ?_)
    (fun i => Multiset.countP_cons_of_neg _ nofun) rfl
  rcases Multiset.mem_cons.mp hd with rfl | hd
  · exact absurd rfl hread
  · exact hd

theorem retryFin (h : b.Ok) {peer : SockAddr} {id : UInt64} (hd : b.parked = .fin peer id ::ₘ ds)
    (hand : Multiset Hand) : Ok { b with parked := ds, hand := hand } := by
  refine h.keep rfl rfl rfl rfl (fun d hd' _ => hd ▸ Multiset.mem_cons_of_mem hd') (fun i => ?_) rfl
  rw [parkedReads, parkedReads, hd]
  exact (Multiset.countP_cons_of_neg _ nofun).symm

theorem finIn (h : b.Ok) (hp : b.pending = p ::ₘ ps) (htype : p.type = .rndzvTx)
    (log : Multiset Event) (hand : Multiset Hand) :
    Ok { b with pending := ps, log := log, hand := hand } := by
  refine h.remove hp rfl rfl rfl rfl rfl (fun op _ howner => howner.type_ne htype)
    (fun d _ howner => ?_) (.inr rfl)
  have hrx := howner.type_eq
  rw [htype] at hrx
  cases hrx

/-- **Every rule keeps the books.** -/
theorem rule (h : b.Ok) (hrule : Rule lossy reports b b') : b'.Ok := by
  cases hrule with
  | draw hids => exact h.drawn hids
  | openRx truncated hids hcur hhand hid htype hzero herror =>
    exact h.add hids hid rfl rfl rfl rfl rfl (fun _ => hzero.1) (fun _ => hzero.2) (.inl hcur)
      (fun _ => rfl)
  | openRma hids hcur hid htype hzero =>
    exact h.add hids hid rfl rfl rfl rfl rfl (fun _ => hzero) (fun hrx => nomatch htype ▸ hrx)
      (.inl hcur) (fun _ => rfl)
  | openTx hids hid htype =>
    exact h.add hids hid rfl rfl rfl rfl rfl (fun hne => absurd htype hne)
      (fun hrx => nomatch htype ▸ hrx) (.inr rfl) (fun hrx => nomatch htype ▸ hrx)
  | issue op hp hcur howner hbound hsame hrem hdef herror =>
    exact h.issue hp hcur howner hbound hsame hrem hdef
  | park d hp hcur howner hbound hsame hrem hdef herror =>
    exact h.park hp hcur howner hbound hsame hrem hdef
  | fail hp hcur htype hsame hrem hdef herror =>
    exact h.restate hp hcur hsame hrem (fun _ => hdef) _
  | ack ok hp hop hcur howner hsame hrem hdef herror =>
    exact h.ack hp hop hcur howner hsame hrem hdef _
  | reissue op hp hd hcur howner howner' hsame hrem hdef herror =>
    exact h.reissue hp hd hcur howner howner' hsame hrem hdef
  | failParked hp hd hcur howner hsame hrem hdef herror =>
    exact h.failParked hp hd hcur howner hsame hrem hdef _
  | settle hp hcur hlive => exact h.settle hp hcur hlive
  | cutShort hp hcur htype hsame hrem =>
    exact h.restate hp hcur hsame hrem (fun hrx => nomatch htype ▸ hrx) b.log
  | finalize cqes hp hcur htype hzero hreport =>
    exact h.finish hp hcur hzero.1 (fun _ => hzero.2) _ _
  | endRma hp hcur htype hzero =>
    exact h.finish hp hcur hzero (fun hrx => nomatch htype ▸ hrx) b.log b.hand
  | sendFin hhand => exact h.post _ b.queue b.log _
  | parkFin hhand => exact h.parkFin _ _ _
  | loseFin hlossy hhand => exact h.post b.sent b.queue _ _
  | retryFin hd => exact h.retryFin hd _
  | finIn hhand hp htype => exact h.finIn hp htype _ _
  | stray hhand hnone => exact h.post b.sent b.queue b.log _
  | enqueue hhand => exact h.post b.sent _ b.log _
  | take hqueue => exact h.post b.sent _ b.log _
  | refuse hhand => exact h.post b.sent b.queue b.log _
  | drop hlossy hhand => exact h.post b.sent b.queue b.log _

end Ok

end Book
