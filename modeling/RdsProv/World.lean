import RdsProv.Accounting
import RdsProv.Book.Tokens

/-!
# Systems of endpoints

Any number of endpoints, joined by a network. What an endpoint's socket has
accepted stays with the sender, in `wire` and `writes`, until it arrives; a
delivery takes it from there and is an action of the receiver. Datagrams arrive in
any order. A ring slot arrives when its reader polls it; that a poll consumes only
slots that were written, and each once, is a condition on deliveries here, and a
theorem about the ring elsewhere.

Everything else an endpoint does is an action of its own, which may take in
anything but a request or a `FIN`: calls of the application, notifications, retries
of parked operations, polls of eager slots, handshakes.

If `lossy`, the environment may fail calls for good, and the network may lose
datagrams; otherwise `sendmsg` can at most ask to be tried again and allocations
succeed.

`World.Inv` is the invariant of such systems: every endpoint keeps sound books, and
tokens and sends are in balance.
-/

/-- What can happen in a system of endpoints. -/
inductive WorldAct (ι : Type) where
  /-- An endpoint acts without taking in a request or a `FIN`. -/
  | own (j : ι) (a : EpAct)
  /-- A datagram arrives. -/
  | deliver (env : Env) (j k : ι) (d : Dgram)
  /-- A datagram is lost. -/
  | lose (j : ι) (d : Dgram)
  /-- A slot is polled out of a ring. -/
  | poll (env : Env) (j k : ι) (addr : UInt64) (op : RdmaOp)

/-- The endpoints of a system. -/
abbrev World (ι : Type) := ι → Ep

namespace World

variable {ι : Type} [DecidableEq ι]

/-- A datagram leaves the network. -/
def unsend (w : World ι) (j : ι) (d : Dgram) : World ι :=
  Function.update w j { w j with wire := (w j).wire.erase d }

/-- A slot has been consumed. -/
def unwrite (w : World ι) (j : ι) (op : RdmaOp) : World ι :=
  Function.update w j { w j with writes := (w j).writes.erase op }

/-- An endpoint acts. -/
def actAt (w : World ι) (k : ι) (a : EpAct) : World ι := Function.update w k ((w k).act a)

/-- One action of a system. -/
def act (w : World ι) : WorldAct ι → World ι
  | .own j a => w.actAt j a
  | .deliver env j k d => (w.unsend j d).actAt k (.recv env (w j).cfg.self d.bytes)
  | .lose j d => w.unsend j d
  | .poll env j k addr op => (w.unwrite j op).actAt k (.poll env addr)

/-- What is possible in a system: an operation is notified only while it is in
flight; a datagram goes where it was sent; a slot is polled out of the ring of the
peer that wrote it. -/
def Admits (lossy : Prop) (w : World ι) : WorldAct ι → Prop
  | .own j a => (w j).incoming a = 0 ∧ (w j).Admits a
      ∧ ∀ env, a.env? = some env → env.Lossy → lossy
  | .deliver env j k d => d ∈ (w j).wire ∧ d.dst = (w k).cfg.self ∧ (env.Lossy → lossy)
  | .lose j d => lossy ∧ d ∈ (w j).wire
  | .poll env j k addr op => op ∈ (w j).writes ∧ op.dst = (w k).cfg.self ∧ (env.Lossy → lossy)
      ∧ ∃ p idx slot, rdsPeerFind (w k) addr = some p
        ∧ p.nextSlot (w k).cfg.geom.slots = some slot ∧ p.sa = (w j).cfg.self
        ∧ op.loc = .stage idx slot

omit [DecidableEq ι] in
/-- What is possible without losses is possible with them. -/
theorem Admits.mono {lossy lossy' : Prop} (hle : lossy → lossy') (w : World ι) (a : WorldAct ι)
    (h : w.Admits lossy a) : w.Admits lossy' a := by
  cases a with
  | own j a => exact ⟨h.1, h.2.1, fun env henv hlossy => hle (h.2.2 env henv hlossy)⟩
  | deliver env j k d => exact ⟨h.1, h.2.1, fun hlossy => hle (h.2.2 hlossy)⟩
  | lose j d => exact ⟨hle h.1, h.2⟩
  | poll env j k fi op => exact ⟨h.1, h.2.1, fun hlossy => hle (h.2.2.1 hlossy), h.2.2.2⟩

/-- A system whose endpoints have just been opened. -/
def init (cfg : ι → EpCfg) (domain : ι → Domain) : World ι := fun j => Ep.init (cfg j) (domain j)

/-- A run of a system from its opening. -/
def Runs (lossy : Prop) (cfg : ι → EpCfg) (domain : ι → Domain) (acts : List (WorldAct ι)) :
    Prop :=
  Along World.act (World.Admits lossy) (World.init cfg domain) acts

/-- The state a run leads to. -/
def after (cfg : ι → EpCfg) (domain : ι → Domain) (acts : List (WorldAct ι)) : World ι :=
  acts.foldl World.act (World.init cfg domain)

/-- A state that a run leads to. -/
def Reachable (lossy : Prop) (cfg : ι → EpCfg) (domain : ι → Domain) (w : World ι) : Prop :=
  ∃ acts, Runs lossy cfg domain acts ∧ World.after cfg domain acts = w

section Reachable

variable {lossy : Prop} {cfg : ι → EpCfg} {domain : ι → Domain} {w : World ι}

theorem Reachable.run (h : Reachable lossy cfg domain w) {acts : List (WorldAct ι)}
    (hacts : Along World.act (World.Admits lossy) w acts) :
    Reachable lossy cfg domain (acts.foldl World.act w) := by
  obtain ⟨before, hrun, rfl⟩ := h
  exact ⟨before ++ acts, Along.append.mpr ⟨hrun, hacts⟩, List.foldl_append⟩

theorem Reachable.act (h : Reachable lossy cfg domain w) {a : WorldAct ι}
    (hadm : w.Admits lossy a) : Reachable lossy cfg domain (w.act a) :=
  h.run (show Along World.act (World.Admits lossy) w [a] from ⟨hadm, trivial⟩)

theorem Reachable.init : Reachable lossy cfg domain (World.init cfg domain) :=
  ⟨[], trivial, rfl⟩

theorem Reachable.mono {lossy' : Prop} (hle : lossy → lossy')
    (h : Reachable lossy cfg domain w) : Reachable lossy' cfg domain w := by
  obtain ⟨acts, hrun, hafter⟩ := h
  exact ⟨acts, hrun.imp (Admits.mono hle), hafter⟩

end Reachable

/-- The books of a system, between actions. -/
def books (w : World ι) : ι → Book := fun j => (w j).book 0 none

end World

/-! ## What arrives -/

/-- What an endpoint has in hand when something has arrived that may be a request
or a `FIN`. -/
def Ctl.hands (src : SockAddr) : Option Ctl → Multiset Hand
  | none => 0
  | some c => {c.hand src}

/-- **What arrives is what was sent.** -/
theorem Hand.inbound_eq (hdr : Hdr) (payload : List UInt8) (src dst : SockAddr) :
    Hand.inbound hdr payload src = Ctl.hands src (hdr.ctl? payload dst) := by
  unfold Hdr.ctl? Hand.inbound
  by_cases hmagic : hdr.magic ≠ rdsHdrMagic
  · rw [if_pos hmagic, if_pos hmagic]
    rfl
  rw [if_neg hmagic, if_neg hmagic]
  by_cases hfin : hdr.op = rdsOpFin
  · rw [if_pos hfin, if_pos hfin]
    rfl
  rw [if_neg hfin, if_neg hfin]
  by_cases hring : hdr.op = rdsOpRingReq ∨ hdr.op = rdsOpRingAck
  · rw [if_pos hring, if_pos (.inr hring)]
    rfl
  rw [if_neg hring]
  by_cases heager : hdr.op = rdsOpEager
  · rw [if_pos heager, ite_self, if_pos (.inl heager)]
    rfl
  rw [if_neg heager, if_neg (not_or.mpr ⟨heager, hring⟩)]
  split
  · rfl
  · rfl

theorem Ep.incoming_recv (ep : Ep) (env : Env) (src : SockAddr) (d : Dgram) :
    ep.incoming (.recv env src d.bytes) = Ctl.hands src d.ctl? := by
  unfold Ep.incoming Dgram.ctl?
  dsimp only
  split
  · rfl
  · exact Hand.inbound_eq _ _ src d.dst

theorem Hand.ofSlot_eq (src : SockAddr) {op : RdmaOp} {idx : ℕ} {slot : RingSlot}
    (hloc : op.loc = .stage idx slot) : Hand.ofSlot src slot = Ctl.hands src op.ctl? := by
  unfold Hand.ofSlot RdmaOp.ctl?
  rw [hloc]
  dsimp only
  split
  · rfl
  · exact Hand.inbound_eq _ _ src op.dst

/-- A `FIN` goes where it was sent. -/
theorem Hdr.dst_of_fin {hdr : Hdr} {payload : List UInt8} {dst peer : SockAddr} {id : UInt64}
    (h : hdr.ctl? payload dst = some (.fin peer id)) : dst = peer := by
  unfold Hdr.ctl? at h
  split at h
  · cases h
  split at h
  · cases h
    rfl
  split at h
  · cases h
  split at h
  · cases h
  · cases h

theorem Dgram.dst_of_fin {d : Dgram} {peer : SockAddr} {id : UInt64}
    (h : d.ctl? = some (.fin peer id)) : d.dst = peer := by
  unfold Dgram.ctl? at h
  split at h
  · cases h
  · exact Hdr.dst_of_fin h

theorem RdmaOp.dst_of_fin {op : RdmaOp} {peer : SockAddr} {id : UInt64}
    (h : op.ctl? = some (.fin peer id)) : op.dst = peer := by
  unfold RdmaOp.ctl? at h
  split at h
  · dsimp only at h
    split at h
    · cases h
    · exact Hdr.dst_of_fin h
  · cases h

/-! ## The invariant -/

/-- Removing what was sent leaves the rest of the books alone. -/
theorem Ep.Sound.of_sent {ep ep' : Ep} (h : ep.Sound) {sent : Multiset Ctl}
    (hbook : ep'.book 0 none = { ep.book 0 none with sent := sent }) (hcfg : ep'.cfg = ep.cfg)
    (hunexp : ep'.unexp = ep.unexp) : ep'.Sound := by
  refine ⟨?_, ?_, hunexp ▸ h.segs⟩
  · rw [hbook]
    exact h.ok.keep rfl rfl rfl rfl (fun _ hd _ => hd) (fun _ => rfl) rfl
  · rw [hbook, hcfg]
    exact { h.history with }

/-- Taking an element out of a list that is kept as a bag. -/
theorem filterMap_erase {α : Type} [DecidableEq α] (f : α → Option Ctl) {l : List α} {a : α}
    (ha : a ∈ l) : ((l.filterMap f : List Ctl) : Multiset Ctl)
      = (f a).elim 0 ({·}) + ((l.erase a).filterMap f : List Ctl) := by
  have hperm : (l.filterMap f).Perm ((a :: l.erase a).filterMap f) :=
    (List.perm_cons_erase ha).filterMap f
  rw [Multiset.coe_eq_coe.mpr hperm]
  cases hfa : f a with
  | none =>
    rw [List.filterMap_cons_none hfa]
    exact (Multiset.zero_add _).symm
  | some c =>
    rw [List.filterMap_cons_some hfa, ← Multiset.cons_coe]
    rfl

namespace World

variable {ι : Type} [Fintype ι] [DecidableEq ι] {lossy : Prop} {addr : ι → SockAddr}
  {w : World ι}

/-- **The invariant of a system of endpoints.** -/
structure Inv (lossy : Prop) (addr : ι → SockAddr) (w : World ι) : Prop where
  self : ∀ j, (w j).cfg.self = addr j
  sound : ∀ j, (w j).Sound
  balanced : Net.Balanced lossy addr w.books

omit [Fintype ι] in
theorem books_update (w : World ι) (k : ι) (ep : Ep) :
    World.books (Function.update w k ep) = Function.update w.books k (ep.book 0 none) := by
  funext j
  unfold World.books
  by_cases hj : j = k
  · rw [hj, Function.update_self, Function.update_self]
  · rw [Function.update_of_ne hj, Function.update_of_ne hj]

/-- **An endpoint acts**, with what it takes in already in its hand. -/
theorem Inv.actAt (hself : ∀ j, (w j).cfg.self = addr j) (hsound : ∀ j, (w j).Sound)
    (haddr : Function.Injective addr) {k : ι} {a : EpAct} (hadm : (w k).Admits a)
    (henv : ∀ env, a.env? = some env → env.Lossy → lossy)
    (hids : ((w k).act a).idsGiven < 2 ^ 64)
    (hbalanced : Net.Balanced lossy addr
      (Function.update w.books k ((w k).book ((w k).incoming a) none))) :
    (w.actAt k a).Inv lossy addr := by
  have hcfg := (Ep.MatchStep.act (w k) a).cfg
  refine ⟨fun j => ?_, fun j => ?_, ?_⟩
  · unfold World.actAt
    by_cases hj : j = k
    · rw [hj, Function.update_self, hcfg, hself]
    · rw [Function.update_of_ne hj, hself]
  · unfold World.actAt
    by_cases hj : j = k
    · rw [hj, Function.update_self]
      exact (hsound k).act hadm hids
    · rw [Function.update_of_ne hj]
      exact hsound j
  · have hsim : Book.Sim lossy False _ _ :=
      Refine.act (w k) a hadm henv (hsound k).ok False.elim (hsound k).segs hids
    have hstep := hbalanced.step haddr (j := k) (b := ((w k).act a).book 0 none)
      (by rw [Function.update_self]; exact hsim)
    rw [Function.update_idem] at hstep
    unfold World.actAt
    rw [books_update]
    exact hstep

/-- What leaves the network leaves the endpoints as they were. -/
theorem Inv.remove (h : w.Inv lossy addr) {j : ι} {ep : Ep} {sent : Multiset Ctl}
    (hbook : ep.book 0 none = { (w j).book 0 none with sent := sent })
    (hcfg : ep.cfg = (w j).cfg) (hunexp : ep.unexp = (w j).unexp) (i : ι) :
    ((Function.update w j ep) i).cfg.self = addr i ∧ ((Function.update w j ep) i).Sound := by
  by_cases hi : i = j
  · rw [hi, Function.update_self, hcfg]
    exact ⟨h.self j, (h.sound j).of_sent hbook hcfg hunexp⟩
  · rw [Function.update_of_ne hi]
    exact ⟨h.self i, h.sound i⟩

/-- **Something arrives**: it leaves the books of one endpoint and is in the hand of
another. -/
theorem Inv.take (h : w.Inv lossy addr) {j : ι} (k : ι) {ep : Ep} {c : Option Ctl}
    {sent : Multiset Ctl} (hbook : ep.book 0 none = { (w j).book 0 none with sent := sent })
    (hsent : ((w j).book 0 none).sent = c.elim 0 ({·}) + sent)
    (hdst : ∀ peer id, c = some (.fin peer id) → peer = addr k) {w₁ : World ι}
    (hw₁ : w₁ = Function.update w j ep) :
    Net.Balanced lossy addr
      (Function.update w₁.books k ((w₁ k).book (Ctl.hands (addr j) c) none)) := by
  have hbooks : w₁.books = Function.update w.books j { w.books j with sent := sent } := by
    rw [hw₁, books_update, hbook]
    rfl
  cases c with
  | none =>
    have hsame : w₁.books = w.books := by
      rw [hbooks]
      refine Function.update_eq_self_iff.mpr ?_
      have hsent : (w.books j).sent = sent := hsent.trans (Multiset.zero_add _)
      rw [← hsent]
    have hself : Function.update w₁.books k ((w₁ k).book (Ctl.hands (addr j) none) none)
        = w.books := by
      rw [← hsame]
      exact Function.update_eq_self k w₁.books
    rw [hself]
    exact h.balanced
  | some c =>
    exact h.balanced.deliver (hsent.trans (Multiset.singleton_add _ _))
      (fun peer id hc => hdst peer id (congrArg some hc)) hbooks

/-- The books without a datagram. -/
theorem book_unsend (ep : Ep) (d : Dgram) :
    ({ ep with wire := ep.wire.erase d } : Ep).book 0 none = { ep.book 0 none with
      sent := ((ep.wire.erase d).filterMap Dgram.ctl? : List Ctl)
        + (ep.writes.filterMap RdmaOp.ctl? : List Ctl) } :=
  rfl

/-- A datagram arrives. -/
theorem Inv.deliver (h : w.Inv lossy addr) (haddr : Function.Injective addr) {env : Env}
    {j k : ι} {d : Dgram} (hadm : w.Admits lossy (.deliver env j k d))
    (hids : (w.act (.deliver env j k d) k).idsGiven < 2 ^ 64) :
    (w.act (.deliver env j k d)).Inv lossy addr := by
  obtain ⟨hd, hdst, hlossy⟩ := hadm
  have hfin : ∀ peer id, d.ctl? = some (.fin peer id) → peer = addr k := by
    intro peer id hctl
    rw [← h.self k, ← hdst]
    exact (Dgram.dst_of_fin hctl).symm
  have hrest : ∀ i, ((w.unsend j d) i).cfg.self = addr i ∧ ((w.unsend j d) i).Sound :=
    h.remove (book_unsend (w j) d) rfl rfl
  have hbalanced := h.take k (book_unsend (w j) d)
    (show _ + _ = _ by rw [filterMap_erase Dgram.ctl? hd, add_assoc]) hfin
    (show w.unsend j d = _ from rfl)
  have hids : (((w.unsend j d) k).act (.recv env (w j).cfg.self d.bytes)).idsGiven < 2 ^ 64 := by
    have hact : w.act (.deliver env j k d) k
        = ((w.unsend j d) k).act (.recv env (w j).cfg.self d.bytes) := Function.update_self _ _ _
    rw [← hact]
    exact hids
  refine Inv.actAt (fun i => (hrest i).1) (fun i => (hrest i).2) haddr trivial ?_ hids ?_
  · intro env' henv
    cases henv
    exact hlossy
  · rw [Ep.incoming_recv, h.self j]
    exact hbalanced

/-- The books without a slot. -/
theorem book_unwrite (ep : Ep) (op : RdmaOp) :
    ({ ep with writes := ep.writes.erase op } : Ep).book 0 none = { ep.book 0 none with
      sent := (ep.wire.filterMap Dgram.ctl? : List Ctl)
        + ((ep.writes.erase op).filterMap RdmaOp.ctl? : List Ctl) } :=
  rfl

omit [Fintype ι] in
/-- A slot leaves the writer's list; what the reader polls is as it was. -/
theorem incoming_unwrite (w : World ι) (j k : ι) (op : RdmaOp) (env : Env) (addr : UInt64) :
    ((w.unwrite j op) k).incoming (.poll env addr) = (w k).incoming (.poll env addr) := by
  unfold World.unwrite
  by_cases hk : k = j
  · rw [hk, Function.update_self]
    rfl
  · rw [Function.update_of_ne hk]

/-- A slot is polled. -/
theorem Inv.poll (h : w.Inv lossy addr) (haddr : Function.Injective addr) {env : Env}
    {j k : ι} {fi : UInt64} {op : RdmaOp} (hadm : w.Admits lossy (.poll env j k fi op))
    (hids : (w.act (.poll env j k fi op) k).idsGiven < 2 ^ 64) :
    (w.act (.poll env j k fi op)).Inv lossy addr := by
  obtain ⟨hop, hdst, hlossy, p, idx, slot, hfind, hslot, hsa, hloc⟩ := hadm
  have hfin : ∀ peer id, op.ctl? = some (.fin peer id) → peer = addr k := by
    intro peer id hctl
    rw [← h.self k, ← hdst]
    exact (RdmaOp.dst_of_fin hctl).symm
  have hrest : ∀ i, ((w.unwrite j op) i).cfg.self = addr i ∧ ((w.unwrite j op) i).Sound :=
    h.remove (book_unwrite (w j) op) rfl rfl
  have hbalanced := h.take k (book_unwrite (w j) op)
    (show _ + _ = _ by rw [filterMap_erase RdmaOp.ctl? hop, add_left_comm]) hfin
    (show w.unwrite j op = _ from rfl)
  have hids : (((w.unwrite j op) k).act (.poll env fi)).idsGiven < 2 ^ 64 := by
    have hact : w.act (.poll env j k fi op) k = ((w.unwrite j op) k).act (.poll env fi) :=
      Function.update_self _ _ _
    rw [← hact]
    exact hids
  refine Inv.actAt (fun i => (hrest i).1) (fun i => (hrest i).2) haddr trivial ?_ hids ?_
  · intro env' henv
    cases henv
    exact hlossy
  · have hincoming : ((w.unwrite j op) k).incoming (.poll env fi)
        = Ctl.hands (addr j) op.ctl? := by
      rw [incoming_unwrite, ← Hand.ofSlot_eq (addr j) hloc, ← h.self j, ← hsa]
      unfold Ep.incoming
      dsimp only
      rw [hfind]
      dsimp only
      rw [hslot]
    rw [hincoming]
    exact hbalanced

/-- **One action of the system keeps the invariant.** -/
theorem Inv.act (h : w.Inv lossy addr) (haddr : Function.Injective addr) {a : WorldAct ι}
    (hadm : w.Admits lossy a) (hids : ∀ j, (w.act a j).idsGiven < 2 ^ 64) :
    (w.act a).Inv lossy addr := by
  cases a with
  | own j a =>
    obtain ⟨hnone, hadm, henv⟩ := hadm
    refine Inv.actAt h.self h.sound haddr hadm henv ?_ ?_
    · have hact : w.act (.own j a) j = (w j).act a := Function.update_self _ _ _
      rw [← hact]
      exact hids j
    · rw [hnone]
      exact (Function.update_eq_self j w.books).symm ▸ h.balanced
  | deliver env j k d => exact h.deliver haddr hadm (hids k)
  | poll env j k fi op => exact h.poll haddr hadm (hids k)
  | lose j d =>
    obtain ⟨hlossy, hd⟩ := hadm
    have hrest := h.remove (book_unsend (w j) d) rfl rfl
    refine ⟨fun i => (hrest i).1, fun i => (hrest i).2, ?_⟩
    · show Net.Balanced lossy addr (World.books (Function.update w j _))
      rw [books_update, book_unsend]
      refine h.balanced.lose hlossy ?_
      show _ ≤ _ + _
      rw [filterMap_erase Dgram.ctl? hd, add_assoc]
      exact Multiset.le_add_left _ _

omit [Fintype ι] in
theorem idsGiven_actAt (w : World ι) (k : ι) (a : EpAct) (j : ι) :
    (w j).idsGiven ≤ (w.actAt k a j).idsGiven := by
  unfold World.actAt
  by_cases hj : j = k
  · rw [hj, Function.update_self]
    exact (Ep.MatchStep.act (w k) a).idsGiven_le
  · rw [Function.update_of_ne hj]

omit [Fintype ι] in
theorem idsGiven_update (w : World ι) (k : ι) {ep : Ep} (hep : ep.idsGiven = (w k).idsGiven)
    (j : ι) : (Function.update w k ep j).idsGiven = (w j).idsGiven := by
  by_cases hj : j = k
  · rw [hj, Function.update_self, hep]
  · rw [Function.update_of_ne hj]

omit [Fintype ι] in
/-- Ids are only ever drawn. -/
theorem idsGiven_le (w : World ι) (a : WorldAct ι) (j : ι) :
    (w j).idsGiven ≤ (w.act a j).idsGiven := by
  cases a with
  | own k a => exact idsGiven_actAt w k a j
  | deliver env i k d =>
    refine le_trans (idsGiven_update w i ?_ j).ge (idsGiven_actAt (w.unsend i d) k _ j)
    rfl
  | lose i d =>
    exact (idsGiven_update w i (show ({ w i with wire := (w i).wire.erase d } : Ep).idsGiven = _
      from rfl) j).ge
  | poll env i k fi op =>
    refine le_trans (idsGiven_update w i ?_ j).ge (idsGiven_actAt (w.unwrite i op) k _ j)
    rfl

omit [DecidableEq ι] in
/-- Nothing has been sent yet. -/
theorem Inv.init (lossy : Prop) (cfg : ι → EpCfg) (domain : ι → Domain) :
    (World.init cfg domain).Inv lossy (fun j => (cfg j).self) where
  self _ := rfl
  sound j := Ep.Sound.init (cfg j) (domain j)
  balanced := by
    intro s i
    have htokens : Net.tokens (fun j => (cfg j).self) (World.init cfg domain).books s i = 0 :=
      Finset.sum_eq_zero (fun _ _ => rfl)
    rw [htokens]
    have hsends : Net.sends (fun j => (cfg j).self) (World.init cfg domain).books s i = 0 :=
      Finset.sum_eq_zero (fun _ _ => rfl)
    rw [hsends]
    exact ⟨le_rfl, fun _ => rfl⟩

/-- **Every run keeps the invariant**, until the ids of an endpoint wrap. -/
theorem Inv.after {cfg : ι → EpCfg} {domain : ι → Domain} {acts : List (WorldAct ι)}
    (haddr : Function.Injective (fun j => (cfg j).self)) (hrun : Runs lossy cfg domain acts)
    (hids : ∀ j, (World.after cfg domain acts j).idsGiven < 2 ^ 64) :
    (World.after cfg domain acts).Inv lossy (fun j => (cfg j).self) := by
  refine @Along.invariant (World ι) (WorldAct ι) World.act (World.Admits lossy)
    (fun w => (∀ j, (w j).idsGiven < 2 ^ 64) → w.Inv lossy (fun j => (cfg j).self))
    ?_ _ (fun _ => Inv.init lossy cfg domain) acts hrun hids
  intro w a hw hadm hids
  exact (hw (fun j => (idsGiven_le w a j).trans_lt (hids j))).act haddr hadm hids

end World
