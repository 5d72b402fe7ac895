import RdsProv.Book.Refine

/-!
# The accounting of rendezvous receives

A rendezvous receive counts its reads in two fields: `seg_remaining`, those the
transport has accepted and not yet acknowledged, and `seg_deferred`, those parked
for retry. Four pieces of code change them, and each may find that nothing is left
and finalize the receive.

Every action is a sequence of rules of the rendezvous protocol (`Refine.act`), and
every rule keeps the books balanced and the log true; so both hold after every run
(`Ep.Sound.after`). What that says of the endpoint itself is `Ep.Accounted`.

Before the counter of ids wraps, that is: an id that comes round again while its
first operation is pending would name two.
-/

open Event

namespace Ep

/-! ## Every run keeps the books -/

/-- **What every run keeps**: the books balance, the log is true, and no
unexpected request names more segments than its count field can say. -/
structure Sound (ep : Ep) : Prop where
  ok : (ep.book 0 none).Ok
  history : (ep.book 0 none).History (ep.cfg.hasRxCq = true)
  segs : ∀ k, ∀ m ∈ ep.unexp k, m.segs.length < 2 ^ 16

namespace Sound

theorem init (cfg : EpCfg) (domain : Domain) : (Ep.init cfg domain).Sound where
  ok :=
    { counter := rfl
      nodup := Multiset.nodup_zero
      range := fun _ h => absurd h (Multiset.notMem_zero _)
      owned := fun _ h => absurd h (Multiset.notMem_zero _)
      parkedOwned := fun _ h => absurd h (Multiset.notMem_zero _)
      remaining := fun _ h => absurd h (Multiset.notMem_zero _)
      deferred := fun _ h => absurd h (Multiset.notMem_zero _)
      bounded := fun _ h => absurd h (Multiset.notMem_zero _)
      live := fun _ h => absurd h (Multiset.notMem_zero _) }
  history :=
    { known := fun _ h => absurd h (Multiset.notMem_zero _)
      rx := fun _ => rfl
      tx := fun _ => rfl
      rxOnce := fun _ => Nat.zero_le 1
      txOnce := fun _ => Nat.zero_le 1
      rxOnly := fun _ h => absurd h (Multiset.notMem_zero _)
      error := fun _ h => absurd h (Multiset.notMem_zero _)
      reported := fun _ _ _ h => absurd h (Multiset.notMem_zero _)
      clean := fun _ => ⟨Multiset.notMem_zero _, Multiset.notMem_zero _⟩ }
  segs _ _ h := absurd h List.not_mem_nil

/-- **One action keeps it.** -/
theorem act {ep : Ep} (h : ep.Sound) {a : EpAct} (hadm : ep.Admits a)
    (hids : (ep.act a).idsGiven < 2 ^ 64) : (ep.act a).Sound := by
  have hmatch := MatchStep.act ep a
  have hsim : Book.Sim True (ep.cfg.hasRxCq = true) _ _ :=
    Refine.act ep a hadm (fun _ _ _ => trivial) h.ok id h.segs hids
  have hok := h.ok.of_hand (ep.incoming a)
  have hhistory : (ep.book (ep.incoming a) none).History (ep.cfg.hasRxCq = true) :=
    { h.history with }
  refine ⟨Book.Sim.ok hsim hok, ?_, hmatch.segs h.segs⟩
  rw [hmatch.cfg]
  exact Book.Sim.history hsim hok hhistory

/-- **Every run keeps it**, until the ids wrap. -/
theorem after {cfg : EpCfg} {domain : Domain} {acts : List EpAct}
    (hrun : Runs cfg domain acts) (hids : (Ep.after cfg domain acts).idsGiven < 2 ^ 64) :
    (Ep.after cfg domain acts).Sound := by
  -- the ids only grow, so they had not wrapped before any action either
  refine @Along.invariant Ep EpAct Ep.act Ep.Admits (fun ep => ep.idsGiven < 2 ^ 64 → ep.Sound)
    ?_ _ (fun _ => init cfg domain) acts hrun hids
  intro ep a hep hadm hids
  exact (hep ((MatchStep.act ep a).idsGiven_le.trans_lt hids)).act hadm hids

/-- The next id is no pending operation's. -/
theorem fresh {ep : Ep} (h : ep.Sound) (hids : ep.idsGiven + 1 < 2 ^ 64) :
    ∀ p ∈ ep.pending, p.id ≠ succId ep.opId :=
  h.ok.fresh hids

end Sound

/-! ## What it says of the endpoint -/

/-- The reads of a receive that were accepted and not yet notified. -/
def outstandingReads (ep : Ep) (id : UInt64) : ℕ := ep.inflight.countP (·.token = id)

/-- The reads of a receive on the deferred queue. -/
def parkedReads (ep : Ep) (id : UInt64) : ℕ := ep.deferred.countP (·.readId? = some id)

/-- **The accounts of the rendezvous receives of an endpoint.** -/
structure Accounted (ep : Ep) : Prop where
  distinct : (ep.pending.map Pending.id).Nodup
  nonzero : ∀ p ∈ ep.pending, p.id ≠ 0
  remaining : ∀ p ∈ ep.pending, p.type = .rndzvRx →
    p.segRemaining.toNat = ep.outstandingReads p.id
  deferred : ∀ p ∈ ep.pending, p.type = .rndzvRx → p.segDeferred.toNat = ep.parkedReads p.id
  live : ∀ p ∈ ep.pending, p.type = .rndzvRx → p.segRemaining ≠ 0 ∨ p.segDeferred ≠ 0
  /-- A read that will be notified finds its operation, which waits for it. -/
  owned : ∀ op ∈ ep.inflight, ∃ p, rdsPendingFind ep op.token = some p ∧ p.segRemaining ≠ 0
  /-- A read that will be retried finds its receive, which counts it. -/
  parkedOwned : ∀ d ∈ ep.deferred, ∀ id, d.readId? = some id →
    ∃ p, rdsPendingFind ep id = some p ∧ p.type = .rndzvRx ∧ p.segDeferred ≠ 0
  /-- It was so at every retry until now: `seg_deferred` was never decremented at
  zero, and no retried read had lost its receive. -/
  clean : ∀ id, .underflow id ∉ ep.trace ∧ .orphan id ∉ ep.trace
  opened : ∀ id, ep.trace.countP (fun e => e.opensRx id) ≤ 1
  /-- A receive was finalized once if none of its reads is left, and not at all as
  long as one is. -/
  closed : ∀ id, ep.trace.countP (fun e => e.closesRx id)
    = if ep.trace.countP (fun e => e.opensRx id) = 1
        ∧ ep.outstandingReads id = 0 ∧ ep.parkedReads id = 0 then 1 else 0
  /-- It reported an error exactly if it was truncated or a read of it failed. -/
  error : ep.cfg.hasRxCq = true → ∀ id cqes, .rxDone id cqes ∈ ep.trace →
    ((∃ c ∈ cqes, c.err ≠ 0) ↔ Spoiled ep.trace id)

/-- The books log what opens and closes receives. -/
theorem countP_log (ep : Ep) {f : Event → Bool} (hf : ∀ e, f e = true → e.booked = true) :
    (ep.book 0 none).log.countP (fun e => f e) = ep.trace.countP (fun e => f e) := by
  rw [Ep.book, Multiset.coe_countP, List.countP_filter]
  refine List.countP_congr (fun e _ => ?_)
  simp only [decide_eq_true_eq, Bool.and_eq_true, and_iff_left_iff_imp]
  exact hf e

theorem booked_of_opensRx {id : UInt64} (e : Event) (h : e.opensRx id = true) :
    e.booked = true := by
  cases e with
  | paired m r => cases h
  | _ => rfl

theorem booked_of_closesRx {id : UInt64} (e : Event) (h : e.closesRx id = true) :
    e.booked = true := by
  cases e with
  | paired m r => cases h
  | _ => rfl

theorem mem_log {ep : Ep} {e : Event} (he : e.booked = true) :
    e ∈ (ep.book 0 none).log ↔ e ∈ ep.trace := by
  rw [Ep.book, Multiset.mem_coe, List.mem_filter, and_iff_left he]

theorem spoiled_log (ep : Ep) (id : UInt64) :
    Spoiled (ep.book 0 none).log id ↔ Spoiled ep.trace id := by
  unfold Spoiled
  rw [mem_log rfl, mem_log rfl, mem_log rfl]
  rfl

namespace Sound

variable {ep : Ep}

theorem outstanding_eq (ep : Ep) (id : UInt64) :
    (ep.book 0 none).outstanding id = ep.outstandingReads id :=
  Multiset.coe_countP _ _

theorem parkedReads_eq (ep : Ep) (id : UInt64) :
    (ep.book 0 none).parkedReads id = ep.parkedReads id :=
  Multiset.coe_countP _ _

/-- A parked read finds its receive. -/
theorem find_of_parked (h : ep.Sound) {d : Deferred} (hd : d ∈ ep.deferred) {id : UInt64}
    (hid : d.readId? = some id) : ∃ p, rdsPendingFind ep id = some p ∧ d.Owner p := by
  obtain ⟨q, hq, howner⟩ := h.ok.parkedOwned d hd (by rw [hid]; exact Option.some_ne_none id)
  have hqid : q.id = id := Option.some.inj (howner.readId?.symm.trans hid)
  have hsome : (rdsPendingFind ep id).isSome := by
    rw [rdsPendingFind, List.find?_isSome]
    exact ⟨q, Multiset.mem_coe.mp hq, beq_iff_eq.mpr hqid⟩
  obtain ⟨p, hfind⟩ := Option.isSome_iff_exists.mp hsome
  have hp : p ∈ (ep.book 0 none).pending := Multiset.mem_coe.mpr (List.mem_of_find?_eq_some hfind)
  have hpid : p.id = id := beq_iff_eq.mp (List.find?_eq_some_iff_append.mp hfind).1
  exact ⟨p, hfind, h.ok.parkedOwner_eq hd hp (by rw [hpid]; exact hid)⟩

/-- A receive that was opened is pending as long as one of its reads is left. -/
theorem pending_iff (h : ep.Sound) {id : UInt64}
    (hopen : ep.trace.countP (fun e => e.opensRx id) = 1) :
    0 < (ep.book 0 none).pendingOf .rndzvRx id
      ↔ ¬ (ep.outstandingReads id = 0 ∧ ep.parkedReads id = 0) := by
  rw [← outstanding_eq, ← parkedReads_eq]
  constructor
  · intro hpos hzero
    obtain ⟨p, hp, htype, rfl⟩ := Multiset.countP_pos.mp hpos
    rcases h.ok.live p hp htype nofun with hne | hne
    · refine hne (UInt32.toNat_inj.mp ?_)
      rw [h.ok.remaining p hp (by rw [htype]; decide), hzero.1]
      rfl
    · refine hne (UInt32.toNat_inj.mp ?_)
      rw [h.ok.deferred p hp htype, hzero.2]
      rfl
  · intro hleft
    -- whatever is left belongs to a pending operation, and the id is that of a receive
    have howned : ∃ p ∈ (ep.book 0 none).pending, p.id = id := by
      rcases Nat.eq_zero_or_pos ((ep.book 0 none).outstanding id) with hzero | hpos
      · have hpos := Nat.pos_of_ne_zero (fun h0 => hleft ⟨hzero, h0⟩)
        obtain ⟨d, hd, hid⟩ := Multiset.countP_pos.mp hpos
        obtain ⟨p, hp, howner⟩ := h.ok.parkedOwned d hd (by rw [hid]; exact Option.some_ne_none id)
        exact ⟨p, hp, Option.some.inj (howner.readId?.symm.trans hid)⟩
      · obtain ⟨op, hop, hid⟩ := Multiset.countP_pos.mp hpos
        obtain ⟨p, hp, howner⟩ := h.ok.owned op hop
        exact ⟨p, hp, howner.1.trans hid⟩
    obtain ⟨p, hp, rfl⟩ := howned
    refine Multiset.countP_pos.mpr ⟨p, hp, ?_, rfl⟩
    by_contra htype
    rw [← countP_log ep booked_of_opensRx, h.history.rxOnly p hp htype] at hopen
    cases hopen

/-- **Sound books are accurate accounts.** -/
theorem accounted (h : ep.Sound) : ep.Accounted where
  distinct := Multiset.coe_nodup.mp h.ok.nodup
  nonzero p hp h0 := by
    have hpos := (h.ok.range p hp).1
    rw [h0] at hpos
    exact absurd hpos (lt_irrefl 0)
  remaining p hp htype := by
    rw [← outstanding_eq]
    exact h.ok.remaining p hp (by rw [htype]; decide)
  deferred p hp htype := by
    rw [← parkedReads_eq]
    exact h.ok.deferred p hp htype
  live p hp htype := h.ok.live p hp htype nofun
  owned op hop := by
    obtain ⟨p, hfind, howner⟩ := Refine.find_of_inflight h.ok hop
    have hpos := h.ok.outstanding_pos hop (List.mem_of_find?_eq_some hfind) howner
    refine ⟨p, hfind, fun h0 => ?_⟩
    rw [h0] at hpos
    exact absurd hpos (lt_irrefl 0)
  parkedOwned d hd id hid := by
    obtain ⟨p, hfind, howner⟩ := h.find_of_parked hd hid
    have hpos := h.ok.parkedReads_pos hd (List.mem_of_find?_eq_some hfind) howner
    refine ⟨p, hfind, howner.type_eq, fun h0 => ?_⟩
    rw [h0] at hpos
    exact absurd hpos (lt_irrefl 0)
  clean id := by
    obtain ⟨horphan, hunderflow⟩ := h.history.clean id
    exact ⟨fun hmem => hunderflow ((mem_log rfl).mpr hmem),
      fun hmem => horphan ((mem_log rfl).mpr hmem)⟩
  opened id := by
    rw [← countP_log ep booked_of_opensRx]
    exact h.history.rxOnce id
  closed id := by
    have hrx := h.history.rx id
    have honce := h.history.rxOnce id
    rw [countP_log ep booked_of_opensRx] at hrx honce
    rw [countP_log ep booked_of_closesRx] at hrx
    split
    · rename_i hdone
      have hnone := mt (h.pending_iff hdone.1).mp (not_not_intro hdone.2)
      omega
    · rename_i hleft
      by_cases hopen : ep.trace.countP (fun e => e.opensRx id) = 1
      · have hsome := (h.pending_iff hopen).mpr (fun hzero => hleft ⟨hopen, hzero⟩)
        omega
      · omega
  error hcq id cqes hmem := by
    rw [h.history.reported hcq id cqes ((mem_log rfl).mpr hmem)]
    exact spoiled_log ep id

end Sound

end Ep

/-- **Rendezvous receives are accounted for.** In every run of an endpoint with
fewer than `2 ^ 64` ids allocated, every state reached has accurate accounts. -/
theorem rendezvous_receives_accounted (cfg : EpCfg) (domain : Domain) (acts : List EpAct)
    (hrun : Ep.Runs cfg domain acts) (hids : (Ep.after cfg domain acts).idsGiven < 2 ^ 64) :
    (Ep.after cfg domain acts).Accounted :=
  (Ep.Sound.after hrun hids).accounted

/-- A receive of a message in two segments: its first read is accepted, the second
is refused and parked, the first is acknowledged with an error while the second
waits, and the second is issued again. -/
def twoSegmentRun : List EpAct :=
  let calm := Env.calm (fun _ _ => .error fiEnomem)
  let busy : Env := { calm with sendmsg := fun t _ => if t = 3 then some fiEagain else none }
  let segs : List Seg := [⟨11, 0, 100⟩, ⟨12, 0, 100⟩]
  [.postRecv calm [⟨4096, 200⟩] fiAddrUnspec 0 0 7 0 false,
    .recv busy 20 ((rtsHdr false 0 2 0 0 200 5).encode ++ encodeSegs segs),
    .notify busy (ReadReq.op ⟨11, 0, [⟨4096, 100⟩]⟩ 20 1 5) (-5),
    .retry calm]

theorem twoSegmentRun_accounted :
    Ep.Runs (EpCfg.standard false [10, 20] 10) (Domain.opened false (some 3) 0 0) twoSegmentRun
      ∧ (Ep.after (EpCfg.standard false [10, 20] 10) (Domain.opened false (some 3) 0 0)
          twoSegmentRun).outstandingReads 1 = 1
      ∧ (Ep.after (EpCfg.standard false [10, 20] 10) (Domain.opened false (some 3) 0 0)
          twoSegmentRun).Accounted := by
  have hrun : Ep.Runs (EpCfg.standard false [10, 20] 10) (Domain.opened false (some 3) 0 0)
      twoSegmentRun := by decide +kernel
  exact ⟨hrun, by decide +kernel, rendezvous_receives_accounted _ _ _ hrun (by decide +kernel)⟩
