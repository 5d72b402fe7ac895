import RdsProv.Book.Balance

/-!
# What the log says

`Book.History` is the invariant about whole runs: every rendezvous receive that
was opened is pending or was finalized, once; it was finalized with an error
exactly if the message was truncated or one of its reads failed or was
acknowledged with an error; and the two events that must never happen – a parked
read without its owner, a counter decremented at zero – did not.
-/

namespace Event

/-- The operation an event is about. -/
def subject : Event → Option UInt64
  | .rxOpen id _ | .readFail id | .readAck id _ | .rxDone id _ | .txOpen id | .txDone id => some id
  | _ => none

/-- A rendezvous receive was opened under the id. -/
def opensRx (id : UInt64) : Event → Bool
  | .rxOpen i _ => i == id
  | _ => false

/-- The rendezvous receive of the id was finalized. -/
def closesRx (id : UInt64) : Event → Bool
  | .rxDone i _ => i == id
  | _ => false

/-- A rendezvous send was accepted under the id. -/
def opensTx (id : UInt64) : Event → Bool
  | .txOpen i => i == id
  | _ => false

/-- The rendezvous send of the id was completed. -/
def closesTx (id : UInt64) : Event → Bool
  | .txDone i => i == id
  | _ => false

/-- What happened to one read of a receive. -/
def OfRead (id : UInt64) (e : Event) : Prop := e = .readFail id ∨ ∃ ok, e = .readAck id ok

/-- The message of a receive was truncated, or one of its reads could not be made
or was acknowledged with an error. -/
def Spoiled (log : Multiset Event) (id : UInt64) : Prop :=
  .rxOpen id true ∈ log ∨ .readFail id ∈ log ∨ .readAck id false ∈ log

theorem spoiled_add (evs log : Multiset Event) (id : UInt64) :
    Spoiled (evs + log) id ↔ Spoiled evs id ∨ Spoiled log id := by
  unfold Spoiled
  simp only [Multiset.mem_add]
  tauto

/-- Events of other operations spoil nothing. -/
theorem spoiled_cons_of_subject {e : Event} {log : Multiset Event} {id : UInt64}
    (h : e.subject ≠ some id) : Spoiled (e ::ₘ log) id ↔ Spoiled log id := by
  have hne : ∀ e' : Event, e'.subject = some id → e' ≠ e := fun e' he' heq => h (heq ▸ he')
  unfold Spoiled
  simp only [Multiset.mem_cons, hne (.rxOpen id true) rfl, hne (.readFail id) rfl,
    hne (.readAck id false) rfl, false_or]

/-- An event that opens or closes an operation is about it. -/
theorem subject_of_count {e : Event} {id : UInt64}
    (h : e.opensRx id = true ∨ e.closesRx id = true ∨ e.opensTx id = true ∨ e.closesTx id = true) :
    e.subject = some id := by
  cases e with
  | rxOpen i t => exact congrArg some (by simpa [opensRx, closesRx, opensTx, closesTx] using h)
  | rxDone i c => exact congrArg some (by simpa [opensRx, closesRx, opensTx, closesTx] using h)
  | txOpen i => exact congrArg some (by simpa [opensRx, closesRx, opensTx, closesTx] using h)
  | txDone i => exact congrArg some (by simpa [opensRx, closesRx, opensTx, closesTx] using h)
  | _ => simp [opensRx, closesRx, opensTx, closesTx] at h

end Event

namespace Book

open Event

/-- The pending operations of a type under an id. -/
def pendingOf (b : Book) (type : PendType) (id : UInt64) : ℕ :=
  b.pending.countP (fun p => p.type = type ∧ p.id = id)

/-- **What the log says.** Each receive was opened once and is pending or was
finalized, and so for sends; the error of a receive is set exactly if it was
spoiled, and it is reported; no parked read was ever without its owner, nor a
counter decremented at zero. -/
structure History (reports : Prop) (b : Book) : Prop where
  known : ∀ e ∈ b.log, ∀ id, e.subject = some id → id.toNat ≤ b.idsGiven
  rx : ∀ id, b.log.countP (fun e => e.closesRx id) + b.pendingOf .rndzvRx id
    = b.log.countP (fun e => e.opensRx id)
  tx : ∀ id, b.log.countP (fun e => e.closesTx id) + b.pendingOf .rndzvTx id
    = b.log.countP (fun e => e.opensTx id)
  rxOnce : ∀ id, b.log.countP (fun e => e.opensRx id) ≤ 1
  txOnce : ∀ id, b.log.countP (fun e => e.opensTx id) ≤ 1
  rxOnly : ∀ p ∈ b.pending, p.type ≠ .rndzvRx → b.log.countP (fun e => e.opensRx p.id) = 0
  error : ∀ p ∈ b.pending, p.type = .rndzvRx → (p.error ≠ 0 ↔ Spoiled b.log p.id)
  reported : reports → ∀ id cqes, .rxDone id cqes ∈ b.log →
    ((∃ c ∈ cqes, c.err ≠ 0) ↔ Spoiled b.log id)
  clean : ∀ id, .orphan id ∉ b.log ∧ .underflow id ∉ b.log

namespace History

variable {lossy reports : Prop} {b b' : Book} {p q : Pending} {ps : Multiset Pending}

/-- A pending receive has not been finalized. -/
theorem not_done (h : b.History reports) (hp : p ∈ b.pending) (htype : p.type = .rndzvRx)
    (cqes : List CqEntry) : .rxDone p.id cqes ∉ b.log := by
  intro hdone
  have hclosed : 0 < b.log.countP (fun e => e.closesRx p.id) :=
    Multiset.countP_pos.mpr ⟨_, hdone, by simp [closesRx]⟩
  have hpending : 0 < b.pendingOf .rndzvRx p.id :=
    Multiset.countP_pos.mpr ⟨p, hp, htype, rfl⟩
  have hrx := h.rx p.id
  have hone := h.rxOnce p.id
  omega

theorem pendingOf_same (hp : b.pending = p ::ₘ ps) (hp' : b'.pending = q ::ₘ ps)
    (hsame : p.Same q) (type : PendType) (id : UInt64) :
    b'.pendingOf type id = b.pendingOf type id := by
  unfold pendingOf
  rw [hp, hp', Multiset.countP_cons, Multiset.countP_cons, hsame.type, hsame.id]

/-- Nothing that the log is about happened. -/
theorem keep (h : b.History reports) (hp : b'.pending = b.pending)
    (hids : b.idsGiven ≤ b'.idsGiven) (hlog : b'.log = b.log) : b'.History reports where
  known := fun e he id hid => (h.known e (hlog ▸ he) id hid).trans hids
  rx := by
    unfold pendingOf
    rw [hp, hlog]
    exact h.rx
  tx := by
    unfold pendingOf
    rw [hp, hlog]
    exact h.tx
  rxOnce := hlog ▸ h.rxOnce
  txOnce := hlog ▸ h.txOnce
  rxOnly := by
    rw [hp, hlog]
    exact h.rxOnly
  error := by
    rw [hp, hlog]
    exact h.error
  reported := hlog ▸ h.reported
  clean := hlog ▸ h.clean

/-- A lost `FIN` is logged and is about no operation of this endpoint. -/
theorem lose (h : b.History reports) {peer : SockAddr} {id : UInt64}
    (hp : b'.pending = b.pending) (hids : b'.idsGiven = b.idsGiven)
    (hlog : b'.log = .finLost peer id ::ₘ b.log) : b'.History reports := by
  have hcount : ∀ f : Event → Bool, f (.finLost peer id) = false →
      b'.log.countP (fun e => f e) = b.log.countP (fun e => f e) := by
    intro f hf
    rw [hlog, Multiset.countP_cons_of_neg _ (by rw [hf]; exact Bool.false_ne_true)]
  have hspoiled : ∀ i, Spoiled b'.log i ↔ Spoiled b.log i := fun i => by
    rw [hlog]
    exact spoiled_cons_of_subject (by simp [subject])
  have hold : ∀ e : Event, e ∈ b'.log → e = .finLost peer id ∨ e ∈ b.log := fun e he => by
    rw [hlog] at he
    exact Multiset.mem_cons.mp he
  refine ⟨?_, fun i => ?_, fun i => ?_, fun i => ?_, fun i => ?_, ?_, ?_, ?_, fun i => ?_⟩
  · intro e he i hi
    rw [hids]
    rcases hold e he with rfl | he
    · cases hi
    · exact h.known e he i hi
  · rw [hcount (closesRx i) rfl, hcount (opensRx i) rfl, pendingOf, hp]
    exact h.rx i
  · rw [hcount (closesTx i) rfl, hcount (opensTx i) rfl, pendingOf, hp]
    exact h.tx i
  · rw [hcount (opensRx i) rfl]
    exact h.rxOnce i
  · rw [hcount (opensTx i) rfl]
    exact h.txOnce i
  · intro r hr htype
    rw [hcount (opensRx r.id) rfl]
    exact h.rxOnly r (hp ▸ hr) htype
  · intro r hr htype
    rw [hspoiled]
    exact h.error r (hp ▸ hr) htype
  · intro hreports i cqes hdone
    rw [hspoiled]
    rcases hold _ hdone with hdone | hdone
    · cases hdone
    · exact h.reported hreports i cqes hdone
  · refine ⟨fun he => ?_, fun he => ?_⟩
    · rcases hold _ he with he | he
      · cases he
      · exact (h.clean i).1 he
    · rcases hold _ he with he | he
      · cases he
      · exact (h.clean i).2 he

/-- An operation changed, and if it is a receive, reads of it may have ended. -/
theorem update (h : b.History reports) (hok : b.Ok) (hp : b.pending = p ::ₘ ps)
    (hp' : b'.pending = q ::ₘ ps) (hsame : p.Same q) (hids : b'.idsGiven = b.idsGiven)
    (evs : Multiset Event) (hlog : b'.log = evs + b.log) (hevs : ∀ e ∈ evs, e.OfRead p.id)
    (htype : evs ≠ 0 → p.type = .rndzvRx)
    (herror : p.type = .rndzvRx → (q.error ≠ 0 ↔ p.error ≠ 0 ∨ Spoiled evs p.id)) :
    b'.History reports := by
  have hmem : p ∈ b.pending := hp ▸ Multiset.mem_cons_self p ps
  have hrest : ∀ r ∈ ps, r ∈ b.pending := fun r hr => hp ▸ Multiset.mem_cons_of_mem hr
  have hcases : ∀ r ∈ b'.pending, r = q ∨ r ∈ ps := fun r hr => by
    rw [hp'] at hr
    exact Multiset.mem_cons.mp hr
  have hcount : ∀ f : Event → Bool, (∀ e, e.OfRead p.id → f e = false) →
      b'.log.countP (fun e => f e) = b.log.countP (fun e => f e) := by
    intro f hf
    rw [hlog, Multiset.countP_add, Multiset.countP_eq_zero.mpr, Nat.zero_add]
    intro e he htrue
    rw [hf e (hevs e he)] at htrue
    cases htrue
  have hother : ∀ id, id ≠ p.id → (Spoiled b'.log id ↔ Spoiled b.log id) := by
    intro id hid
    rw [hlog, spoiled_add]
    refine or_iff_right (fun hspoiled => ?_)
    rcases hspoiled with hs | hs | hs
    · rcases hevs _ hs with he | ⟨ok, he⟩
      · cases he
      · cases he
    · rcases hevs _ hs with he | ⟨ok, he⟩
      · cases he
        exact hid rfl
      · cases he
    · rcases hevs _ hs with he | ⟨ok, he⟩
      · cases he
      · cases he
        exact hid rfl
  have hread : ∀ f : UInt64 → Event → Bool, (∀ i e, e.OfRead i → ∀ id, f id e = false) → ∀ id,
      b'.log.countP (fun e => f id e) = b.log.countP (fun e => f id e) :=
    fun f hf id => hcount (f id) (fun e he => hf _ e he id)
  have hopensRx := hread opensRx (by rintro i e (rfl | ⟨ok, rfl⟩) id <;> rfl)
  have hclosesRx := hread closesRx (by rintro i e (rfl | ⟨ok, rfl⟩) id <;> rfl)
  have hopensTx := hread opensTx (by rintro i e (rfl | ⟨ok, rfl⟩) id <;> rfl)
  have hclosesTx := hread closesTx (by rintro i e (rfl | ⟨ok, rfl⟩) id <;> rfl)
  refine ⟨?_, fun id => ?_, fun id => ?_, fun id => ?_, fun id => ?_, ?_, ?_, ?_, fun id => ?_⟩
  · intro e he id hid
    rw [hids]
    rw [hlog] at he
    rcases Multiset.mem_add.mp he with he | he
    · have hpid : id = p.id := by
        rcases hevs e he with rfl | ⟨ok, rfl⟩
        · exact (Option.some.inj hid).symm
        · exact (Option.some.inj hid).symm
      rw [hpid]
      exact (hok.range p hmem).2
    · exact h.known e he id hid
  · rw [hclosesRx, hopensRx, pendingOf_same hp hp' hsame]
    exact h.rx id
  · rw [hclosesTx, hopensTx, pendingOf_same hp hp' hsame]
    exact h.tx id
  · rw [hopensRx]
    exact h.rxOnce id
  · rw [hopensTx]
    exact h.txOnce id
  · intro r hr hne
    rw [hopensRx]
    rcases hcases r hr with rfl | hr
    · rw [hsame.id]
      exact h.rxOnly p hmem (hsame.type ▸ hne)
    · exact h.rxOnly r (hrest r hr) hne
  · intro r hr hrx
    rcases hcases r hr with rfl | hr
    · have hrx : p.type = .rndzvRx := hsame.type ▸ hrx
      rw [herror hrx, hsame.id, hlog, spoiled_add, h.error p hmem hrx, or_comm]
    · rw [hother r.id (hok.id_ne hp hr)]
      exact h.error r (hrest r hr) hrx
  · intro hreports id cqes hdone
    rw [hlog] at hdone
    have hdone : .rxDone id cqes ∈ b.log := by
      rcases Multiset.mem_add.mp hdone with hdone | hdone
      · rcases hevs _ hdone with he | ⟨ok, he⟩
        · cases he
        · cases he
      · exact hdone
    by_cases hid : id = p.id
    · -- the receive of a read that ended is still pending, so it was not finalized
      by_cases hnone : evs = 0
      · rw [hlog, hnone, Multiset.zero_add]
        exact h.reported hreports id cqes hdone
      · exact absurd (hid ▸ hdone) (h.not_done hmem (htype hnone) cqes)
    · rw [hother id hid]
      exact h.reported hreports id cqes hdone
  · rw [hlog, Multiset.mem_add, Multiset.mem_add, not_or, not_or]
    refine ⟨⟨fun he => ?_, (h.clean id).1⟩, ⟨fun he => ?_, (h.clean id).2⟩⟩
    · rcases hevs _ he with he | ⟨ok, he⟩
      · cases he
      · cases he
    · rcases hevs _ he with he | ⟨ok, he⟩
      · cases he
      · cases he

/-- **An operation is opened** under an id that nothing in the log is about. -/
theorem add (h : b.History reports) (hok : b.Ok) (hnum : p.id.toNat = b.idsGiven + 1)
    (hp' : b'.pending = p ::ₘ b.pending) (hids : b'.idsGiven = b.idsGiven + 1)
    (evs : Multiset Event) (hlog : b'.log = evs + b.log)
    (hsubject : ∀ e ∈ evs, e.subject = some p.id)
    (hopensRx : ∀ id, evs.countP (fun e => e.opensRx id)
      = if p.type = .rndzvRx ∧ p.id = id then 1 else 0)
    (hopensTx : ∀ id, evs.countP (fun e => e.opensTx id)
      = if p.type = .rndzvTx ∧ p.id = id then 1 else 0)
    (hcloses : ∀ e ∈ evs, ∀ id, e.closesRx id = false ∧ e.closesTx id = false)
    (herror : p.type = .rndzvRx → (p.error ≠ 0 ↔ Spoiled evs p.id)) :
    b'.History reports := by
  have hfresh : ∀ e ∈ b.log, e.subject ≠ some p.id := fun e he hsub => by
    have hle := h.known e he p.id hsub
    omega
  have hne : ∀ r ∈ b.pending, r.id ≠ p.id := fun r hr heq => by
    have hle := (hok.range r hr).2
    rw [heq] at hle
    omega
  have hcases : ∀ r ∈ b'.pending, r = p ∨ r ∈ b.pending := fun r hr => by
    rw [hp'] at hr
    exact Multiset.mem_cons.mp hr
  have hzero : ∀ f : Event → Bool, (∀ e, f e = true → e.subject = some p.id) →
      b.log.countP (fun e => f e) = 0 := fun f hf =>
    Multiset.countP_eq_zero.mpr (fun e he htrue => hfresh e he (hf e htrue))
  have hclosed : ∀ f : Event → Bool, (∀ e ∈ evs, f e = false) →
      b'.log.countP (fun e => f e) = b.log.countP (fun e => f e) := by
    intro f hf
    rw [hlog, Multiset.countP_add, Multiset.countP_eq_zero.mpr, Nat.zero_add]
    intro e he htrue
    rw [hf e he] at htrue
    cases htrue
  have hpending : ∀ type id, b'.pendingOf type id
      = b.pendingOf type id + if p.type = type ∧ p.id = id then 1 else 0 := by
    intro type id
    unfold pendingOf
    rw [hp', Multiset.countP_cons]
  have hother : ∀ id, id ≠ p.id → (Spoiled b'.log id ↔ Spoiled b.log id) := by
    intro id hid
    have hsub : ∀ e : Event, e.subject = some id → e ∉ evs := fun e he hmem =>
      hid (Option.some.inj (he.symm.trans (hsubject e hmem)))
    rw [hlog, spoiled_add]
    refine or_iff_right (fun hspoiled => ?_)
    rcases hspoiled with hs | hs | hs
    · exact hsub _ rfl hs
    · exact hsub _ rfl hs
    · exact hsub _ rfl hs
  refine ⟨?_, fun id => ?_, fun id => ?_, fun id => ?_, fun id => ?_, ?_, ?_, ?_, fun id => ?_⟩
  · intro e he id hid
    rw [hids]
    rw [hlog] at he
    rcases Multiset.mem_add.mp he with he | he
    · rw [← Option.some.inj ((hsubject e he).symm.trans hid)]
      exact hnum.le
    · exact (h.known e he id hid).trans (Nat.le_succ _)
  · rw [hclosed (closesRx id) (fun e he => (hcloses e he id).1), hpending, hlog,
      Multiset.countP_add, hopensRx, ← Nat.add_assoc, h.rx id, Nat.add_comm]
  · rw [hclosed (closesTx id) (fun e he => (hcloses e he id).2), hpending, hlog,
      Multiset.countP_add, hopensTx, ← Nat.add_assoc, h.tx id, Nat.add_comm]
  · rw [hlog, Multiset.countP_add, hopensRx]
    split
    · rename_i hpid
      rw [← hpid.2, hzero (opensRx p.id) (fun e he => subject_of_count (.inl he))]
    · rw [Nat.zero_add]
      exact h.rxOnce id
  · rw [hlog, Multiset.countP_add, hopensTx]
    split
    · rename_i hpid
      rw [← hpid.2, hzero (opensTx p.id) (fun e he => subject_of_count (.inr (.inr (.inl he))))]
    · rw [Nat.zero_add]
      exact h.txOnce id
  · intro r hr htype
    rw [hlog, Multiset.countP_add, hopensRx]
    rcases hcases r hr with rfl | hr
    · rw [if_neg (fun hrx => htype hrx.1),
        hzero (opensRx r.id) (fun e he => subject_of_count (.inl he))]
    · rw [if_neg (fun hpid => hne r hr hpid.2.symm), h.rxOnly r hr htype]
  · intro r hr htype
    rcases hcases r hr with rfl | hr
    · rw [herror htype, hlog, spoiled_add]
      refine (or_iff_left (fun hspoiled => ?_)).symm
      rcases hspoiled with hs | hs | hs
      · exact hfresh _ hs rfl
      · exact hfresh _ hs rfl
      · exact hfresh _ hs rfl
    · rw [hother r.id (hne r hr)]
      exact h.error r hr htype
  · intro hreports id cqes hdone
    rw [hlog] at hdone
    rcases Multiset.mem_add.mp hdone with hdone | hdone
    · have hno := (hcloses _ hdone id).1
      simp [closesRx] at hno
    · rw [hother id (fun hid => hfresh _ hdone (congrArg some hid))]
      exact h.reported hreports id cqes hdone
  · rw [hlog, Multiset.mem_add, Multiset.mem_add, not_or, not_or]
    refine ⟨⟨fun he => ?_, (h.clean id).1⟩, ⟨fun he => ?_, (h.clean id).2⟩⟩
    · cases hsubject _ he
    · cases hsubject _ he

/-- **An operation ends**, and the log says so. -/
theorem remove (h : b.History reports) (hok : b.Ok) (hp : b.pending = p ::ₘ ps)
    (hp' : b'.pending = ps) (hids : b'.idsGiven = b.idsGiven)
    (evs : Multiset Event) (hlog : b'.log = evs + b.log)
    (hsubject : ∀ e ∈ evs, e.subject = some p.id)
    (hclosesRx : ∀ id, evs.countP (fun e => e.closesRx id)
      = if p.type = .rndzvRx ∧ p.id = id then 1 else 0)
    (hclosesTx : ∀ id, evs.countP (fun e => e.closesTx id)
      = if p.type = .rndzvTx ∧ p.id = id then 1 else 0)
    (hopens : ∀ e ∈ evs, ∀ id, e.opensRx id = false ∧ e.opensTx id = false)
    (hspoils : ∀ id, ¬ Spoiled evs id)
    (hreport : reports → ∀ cqes, .rxDone p.id cqes ∈ evs →
      ((∃ c ∈ cqes, c.err ≠ 0) ↔ p.error ≠ 0)) :
    b'.History reports := by
  have hmem : p ∈ b.pending := hp ▸ Multiset.mem_cons_self p ps
  have hrest : ∀ r ∈ b'.pending, r ∈ b.pending := fun r hr =>
    hp ▸ Multiset.mem_cons_of_mem (hp' ▸ hr)
  have hopened : ∀ f : Event → Bool, (∀ e ∈ evs, f e = false) →
      b'.log.countP (fun e => f e) = b.log.countP (fun e => f e) := by
    intro f hf
    rw [hlog, Multiset.countP_add, Multiset.countP_eq_zero.mpr, Nat.zero_add]
    intro e he htrue
    rw [hf e he] at htrue
    cases htrue
  have hopenedRx := fun id => hopened (opensRx id) (fun e he => (hopens e he id).1)
  have hopenedTx := fun id => hopened (opensTx id) (fun e he => (hopens e he id).2)
  have hpending : ∀ type id, b.pendingOf type id
      = b'.pendingOf type id + if p.type = type ∧ p.id = id then 1 else 0 := by
    intro type id
    unfold pendingOf
    rw [hp, hp', Multiset.countP_cons]
  have hspoiled : ∀ id, Spoiled b'.log id ↔ Spoiled b.log id := by
    intro id
    rw [hlog, spoiled_add]
    exact or_iff_right (hspoils id)
  refine ⟨?_, fun id => ?_, fun id => ?_, fun id => ?_, fun id => ?_, ?_, ?_, ?_, fun id => ?_⟩
  · intro e he id hid
    rw [hids]
    rw [hlog] at he
    rcases Multiset.mem_add.mp he with he | he
    · rw [← Option.some.inj ((hsubject e he).symm.trans hid)]
      exact (hok.range p hmem).2
    · exact h.known e he id hid
  · have hrx := h.rx id
    rw [hpending] at hrx
    rw [hopenedRx, hlog, Multiset.countP_add, hclosesRx]
    omega
  · have htx := h.tx id
    rw [hpending] at htx
    rw [hopenedTx, hlog, Multiset.countP_add, hclosesTx]
    omega
  · rw [hopenedRx]
    exact h.rxOnce id
  · rw [hopenedTx]
    exact h.txOnce id
  · intro r hr htype
    rw [hopenedRx]
    exact h.rxOnly r (hrest r hr) htype
  · intro r hr htype
    rw [hspoiled]
    exact h.error r (hrest r hr) htype
  · intro hreports id cqes hdone
    rw [hspoiled]
    rw [hlog] at hdone
    rcases Multiset.mem_add.mp hdone with hdone | hdone
    · have hid : id = p.id := Option.some.inj (hsubject _ hdone)
      subst hid
      have htype : p.type = .rndzvRx := by
        by_contra htype
        have hcount := hclosesRx p.id
        rw [if_neg (fun hrx => htype hrx.1)] at hcount
        exact Multiset.countP_eq_zero.mp hcount _ hdone (by simp [closesRx])
      rw [hreport hreports cqes hdone]
      exact h.error p hmem htype
    · exact h.reported hreports id cqes hdone
  · rw [hlog, Multiset.mem_add, Multiset.mem_add, not_or, not_or]
    refine ⟨⟨fun he => ?_, (h.clean id).1⟩, ⟨fun he => ?_, (h.clean id).2⟩⟩
    · cases hsubject _ he
    · cases hsubject _ he

theorem countP_single (f : Event → Bool) (e : Event) :
    ({e} : Multiset Event).countP (fun e => f e) = if f e then 1 else 0 := by
  rw [← Multiset.cons_zero, Multiset.countP_cons, Multiset.countP_zero, Nat.zero_add]

/-- A finalized receive is logged. -/
theorem finalize (h : b.History reports) (hok : b.Ok) (hp : b.pending = p ::ₘ ps)
    (htype : p.type = .rndzvRx) (cqes : List CqEntry)
    (hreport : reports → ((∃ c ∈ cqes, c.err ≠ 0) ↔ p.error ≠ 0)) (hp' : b'.pending = ps)
    (hids : b'.idsGiven = b.idsGiven) (hlog : b'.log = .rxDone p.id cqes ::ₘ b.log) :
    b'.History reports := by
  refine h.remove hok hp hp' hids {.rxDone p.id cqes} (by rw [hlog, Multiset.singleton_add])
    (fun e he => ?_) (fun id => ?_) (fun id => ?_) (fun e he id => ?_) (fun id hs => ?_)
    (fun hreports c hc => ?_)
  · rw [Multiset.mem_singleton.mp he]
    rfl
  · rw [countP_single (closesRx id)]
    simp [closesRx, htype]
  · rw [countP_single (closesTx id)]
    simp [closesTx, htype]
  · rw [Multiset.mem_singleton.mp he]
    exact ⟨rfl, rfl⟩
  · simp [Spoiled] at hs
  · cases Multiset.mem_singleton.mp hc
    exact hreport hreports

/-- **Every rule keeps the history.** -/
theorem rule (h : b.History reports) (hok : b.Ok) (hrule : Rule lossy reports b b') :
    b'.History reports := by
  have hsame : ∀ {log : Multiset Event}, log = 0 + log := (Multiset.zero_add _).symm
  cases hrule with
  | draw hids => exact h.keep rfl (Nat.le_succ _) rfl
  | openRx truncated hids hcur hhand hid htype hzero herror =>
    rename_i p hand
    refine h.add hok (hok.toNat_id hids hid) rfl rfl {.rxOpen p.id truncated}
      (Multiset.singleton_add _ _).symm (fun e he => ?_) (fun id => ?_) (fun id => ?_)
      (fun e he id => ?_) (fun _ => ?_)
    · rw [Multiset.mem_singleton.mp he]
      rfl
    · rw [countP_single (opensRx id)]
      simp [opensRx, htype]
    · rw [countP_single (opensTx id)]
      simp [opensTx, htype]
    · rw [Multiset.mem_singleton.mp he]
      exact ⟨rfl, rfl⟩
    · rw [herror]
      simp [Spoiled, eq_comm]
  | openRma hids hcur hid htype hzero =>
    refine h.add hok (hok.toNat_id hids hid) rfl rfl 0 hsame (fun e he => ?_) (fun id => ?_)
      (fun id => ?_) (fun e he => ?_) (fun hrx => ?_)
    · exact absurd he (Multiset.notMem_zero e)
    · simp [htype]
    · simp [htype]
    · exact absurd he (Multiset.notMem_zero e)
    · rw [htype] at hrx
      cases hrx
  | openTx hids hid htype =>
    rename_i p
    refine h.add hok (hok.toNat_id hids hid) rfl rfl {.txOpen p.id}
      (Multiset.singleton_add _ _).symm (fun e he => ?_) (fun id => ?_) (fun id => ?_)
      (fun e he id => ?_) (fun hrx => ?_)
    · rw [Multiset.mem_singleton.mp he]
      rfl
    · rw [countP_single (opensRx id)]
      simp [opensRx, htype]
    · rw [countP_single (opensTx id)]
      simp [opensTx, htype]
    · rw [Multiset.mem_singleton.mp he]
      exact ⟨rfl, rfl⟩
    · rw [htype] at hrx
      cases hrx
  | issue op hp hcur howner hbound hsameOp hrem hdef herror =>
    exact h.update hok hp rfl hsameOp rfl 0 hsame (by simp) (by simp) (by simp [herror, Spoiled])
  | park d hp hcur howner hbound hsameOp hrem hdef herror =>
    exact h.update hok hp rfl hsameOp rfl 0 hsame (by simp) (by simp) (by simp [herror, Spoiled])
  | fail hp hcur htype hsameOp hrem hdef herror =>
    rename_i p q ps
    refine h.update hok hp rfl hsameOp rfl {.readFail p.id} (Multiset.singleton_add _ _).symm
      (fun e he => ?_) (fun _ => htype) (fun _ => ?_)
    · exact .inl (Multiset.mem_singleton.mp he)
    · simp [herror, Spoiled]
  | ack ok hp hop hcur howner hsameOp hrem hdef herror =>
    rename_i p q ps op ops
    by_cases htype : p.type = .rndzvRx
    · refine h.update hok hp rfl hsameOp rfl {.readAck p.id ok} ?_ (fun e he => ?_)
        (fun _ => htype) (fun _ => ?_)
      · exact (if_pos htype).trans (Multiset.singleton_add _ _).symm
      · exact .inr ⟨ok, Multiset.mem_singleton.mp he⟩
      · rw [herror]
        simp [Spoiled, eq_comm]
    · exact h.update hok hp rfl hsameOp rfl 0 ((if_neg htype).trans hsame) (by simp) (by simp)
        (fun hrx => absurd hrx htype)
  | reissue op hp hd hcur howner howner' hsameOp hrem hdef herror =>
    exact h.update hok hp rfl hsameOp rfl 0 hsame (by simp) (by simp) (by simp [herror, Spoiled])
  | failParked hp hd hcur howner hsameOp hrem hdef herror =>
    rename_i p q ps d ds
    refine h.update hok hp rfl hsameOp rfl {.readFail p.id} (Multiset.singleton_add _ _).symm
      (fun e he => ?_) (fun _ => howner.type_eq) (fun _ => ?_)
    · exact .inl (Multiset.mem_singleton.mp he)
    · simp [herror, Spoiled]
  | settle hp hcur hlive => exact h.keep rfl le_rfl rfl
  | cutShort hp hcur htype hsameOp hrem =>
    refine h.update hok hp rfl hsameOp rfl 0 hsame (by simp) (by simp) (fun hrx => ?_)
    rw [htype] at hrx
    cases hrx
  | finalize cqes hp hcur htype hzero hreport =>
    exact h.finalize hok hp htype cqes hreport rfl rfl rfl
  | endRma hp hcur htype hzero =>
    refine h.remove hok hp rfl rfl 0 hsame (fun e he => ?_) (fun id => ?_) (fun id => ?_)
      (fun e he => ?_) (by simp [Spoiled]) (by simp)
    · exact absurd he (Multiset.notMem_zero e)
    · simp [htype]
    · simp [htype]
    · exact absurd he (Multiset.notMem_zero e)
  | sendFin hhand => exact h.keep rfl le_rfl rfl
  | parkFin hhand => exact h.keep rfl le_rfl rfl
  | loseFin hlossy hhand => exact h.lose rfl rfl rfl
  | retryFin hd => exact h.keep rfl le_rfl rfl
  | finIn hhand hp htype =>
    rename_i p ps hand
    refine h.remove hok hp rfl rfl {.txDone p.id} (Multiset.singleton_add _ _).symm
      (fun e he => ?_) (fun id => ?_) (fun id => ?_) (fun e he id => ?_) (by simp [Spoiled])
      (fun _ c hc => ?_)
    · rw [Multiset.mem_singleton.mp he]
      rfl
    · rw [countP_single (closesRx id)]
      simp [closesRx, htype]
    · rw [countP_single (closesTx id)]
      simp [closesTx, htype]
    · rw [Multiset.mem_singleton.mp he]
      exact ⟨rfl, rfl⟩
    · cases Multiset.mem_singleton.mp hc
  | stray hhand hnone => exact h.keep rfl le_rfl rfl
  | enqueue hhand => exact h.keep rfl le_rfl rfl
  | take hqueue => exact h.keep rfl le_rfl rfl
  | refuse hhand => exact h.keep rfl le_rfl rfl
  | drop hlossy hhand => exact h.keep rfl le_rfl rfl

end History

end Book
