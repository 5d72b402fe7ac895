import RdsProv.Carriers
import RdsProv.CompletionQueue
import RdsProv.ProgressPass

/-!
# From the endpoint to the application

An endpoint reports completions to the two queues bound to it, and the application reads
them from there. The model of the endpoint records what was reported, in order; the queue
underneath is a structure of its own, of fixed size and with a bit of the flag word to
itself. This module puts the two together.

Two things are asked of the endpoint. It **only adds** completions: what it reported is
never taken back or reordered. And what it adds **fits the queue**: no completion carries
the queue's own bit – the flags are put together from constants, and a pending operation
keeps those it was opened with – and a source address is reported only with `FI_SOURCE`.
`Ep.Tells` says both of a step, with one lemma for each function of the endpoint.

With that the queues can be driven by the endpoint's calls, and what the application has
read from a queue, followed by what still waits there, is all that the endpoint reported to
it (`completions_reach_the_application`).
-/

/-- A completion the queues of an endpoint can take. -/
def CqEntry.Fits (cfg : EpCfg) (x : CqEntry) : Prop :=
  hasFlag x.flags utilFlagAux = false ∧ (x.src.isSome = true → hasFlag cfg.caps fiSource = true)

/-- The flags of what is pending leave the queue's bit alone. -/
def Ep.Plain (ep : Ep) : Prop := ∀ p ∈ ep.pending, hasFlag p.flags utilFlagAux = false

/-- **A step only adds completions, and they fit.** -/
structure Ep.Tells (ep e : Ep) : Prop where
  cfg : e.cfg = ep.cfg
  plain : e.Plain
  rxCq : ∃ l, e.rxCq = ep.rxCq ++ l ∧ ∀ x ∈ l, x.Fits ep.cfg
  txCq : ∃ l, e.txCq = ep.txCq ++ l ∧ ∀ x ∈ l, x.Fits ep.cfg

theorem hasFlag_txFlags (tagged : Bool) : hasFlag (txFlags tagged) utilFlagAux = false := by
  cases tagged with
  | false => decide
  | true => decide

/-- The flags of a receive completion are constants chosen by the header. -/
theorem hasFlag_rdsRxFlags (hdr : Hdr) : hasFlag (rdsRxFlags hdr) utilFlagAux = false := by
  unfold rdsRxFlags
  split
  · split
    · decide
    · decide
  · split
    · decide
    · decide

theorem hasFlag_rmaFlags (isWrite : Bool) :
    hasFlag (fiRma ||| (if isWrite then fiWrite else fiRead)) utilFlagAux = false := by
  cases isWrite with
  | false => decide
  | true => decide

theorem Pending.fail_flags (p : Pending) (e : ℕ) : (p.fail e).flags = p.flags := by
  unfold Pending.fail
  split
  · rfl
  · rfl

/-! ## Entries -/

theorem forall_mem_ite_nil {α : Type*} {P : α → Prop} {c : Prop} [Decidable c] {l : List α}
    (h : ∀ x ∈ l, P x) : ∀ x ∈ (if c then l else []), P x := by
  split
  · exact h
  · exact nofun

/-- A transmit completion has no source address. -/
theorem txEntries_fit {cfg : EpCfg} (context : ℕ) {flags : UInt64} (len err : ℕ)
    (hflags : hasFlag flags utilFlagAux = false) :
    ∀ x ∈ txEntries cfg context flags len err, x.Fits cfg := by
  refine forall_mem_ite_nil (fun x hx => ?_)
  rw [List.mem_singleton.mp hx]
  exact ⟨hflags, nofun⟩

/-- A receive completion has its source address only where the endpoint asked for it. -/
theorem rxEntries_fit {cfg : EpCfg} (context : ℕ) {flags : UInt64} (len : ℕ)
    (data tag src : UInt64) (err : ℕ) (hflags : hasFlag flags utilFlagAux = false) :
    ∀ x ∈ rxEntries cfg context flags len data tag src err, x.Fits cfg := by
  refine forall_mem_ite_nil (fun x hx => ?_)
  rw [List.mem_singleton.mp hx]
  refine ⟨hflags, fun hsrc => ?_⟩
  dsimp only at hsrc
  split at hsrc
  · rename_i hcap
    exact (Bool.and_eq_true_iff.mp hcap).2
  · cases hsrc

namespace Ep.Tells

variable {ep e e' : Ep}

/-- Nothing was reported. -/
theorem of_same (h : ep.Plain) (hcfg : e.cfg = ep.cfg) (hpending : e.pending = ep.pending)
    (hrx : e.rxCq = ep.rxCq) (htx : e.txCq = ep.txCq) : ep.Tells e where
  cfg := hcfg
  plain := by
    unfold Ep.Plain
    rw [hpending]
    exact h
  rxCq := ⟨[], by rw [hrx, List.append_nil], fun x hx => (List.not_mem_nil hx).elim⟩
  txCq := ⟨[], by rw [htx, List.append_nil], fun x hx => (List.not_mem_nil hx).elim⟩

theorem refl (h : ep.Plain) : ep.Tells ep := of_same h rfl rfl rfl rfl

theorem trans (h : ep.Tells e) (h' : e.Tells e') : ep.Tells e' where
  cfg := h'.cfg.trans h.cfg
  plain := h'.plain
  rxCq := by
    obtain ⟨l, hl, hfit⟩ := h.rxCq
    obtain ⟨l', hl', hfit'⟩ := h'.rxCq
    rw [h.cfg] at hfit'
    exact ⟨l ++ l', by rw [hl', hl, List.append_assoc], List.forall_mem_append.mpr ⟨hfit, hfit'⟩⟩
  txCq := by
    obtain ⟨l, hl, hfit⟩ := h.txCq
    obtain ⟨l', hl', hfit'⟩ := h'.txCq
    rw [h.cfg] at hfit'
    exact ⟨l ++ l', by rw [hl', hl, List.append_assoc], List.forall_mem_append.mpr ⟨hfit, hfit'⟩⟩

/-- Nothing is reported after it. -/
theorem same (h : ep.Tells e) (hcfg : e'.cfg = e.cfg) (hpending : e'.pending = e.pending)
    (hrx : e'.rxCq = e.rxCq) (htx : e'.txCq = e.txCq) : ep.Tells e' :=
  h.trans (of_same h.plain hcfg hpending hrx htx)

/-- The step starts from an endpoint that differs in other things. -/
theorem start (h : e.Tells e') (hcfg : e.cfg = ep.cfg) (hrx : e.rxCq = ep.rxCq)
    (htx : e.txCq = ep.txCq) : ep.Tells e' := by
  obtain ⟨hcfg', hplain, hrxCq, htxCq⟩ := h
  rw [hrx, hcfg] at hrxCq
  rw [htx, hcfg] at htxCq
  exact ⟨hcfg'.trans hcfg, hplain, hrxCq, htxCq⟩

/-! ### Completions and pending operations -/

theorem log (h : ep.Plain) (ev : Event) : ep.Tells (ep.log ev) := of_same h rfl rfl rfl rfl

/-- An operation is opened with flags that are plain. -/
theorem linkPending (h : ep.Plain) {p : Pending} (hp : hasFlag p.flags utilFlagAux = false) :
    ep.Tells (ep.linkPending p) where
  cfg := rfl
  plain := List.forall_mem_append.mpr ⟨h, fun q hq => by rw [List.mem_singleton.mp hq]; exact hp⟩
  rxCq := (refl h).rxCq
  txCq := (refl h).txCq

theorem unlinkPending (h : ep.Plain) (id : UInt64) : ep.Tells (ep.unlinkPending id) where
  cfg := rfl
  plain := fun p hp => h p (List.mem_of_mem_eraseP hp)
  rxCq := (refl h).rxCq
  txCq := (refl h).txCq

/-- An operation that is written back keeps its flags. -/
theorem storePending (h : ep.Plain) {p : Pending} (hp : hasFlag p.flags utilFlagAux = false) :
    ep.Tells (ep.storePending p) where
  cfg := rfl
  plain := by
    intro q hq
    have hq : q ∈ ep.pending.modifyFirst (·.id == p.id) (fun _ => p) := hq
    cases hfind : ep.pending.find? (·.id == p.id) with
    | none =>
      rw [List.modifyFirst_of_none hfind] at hq
      exact h q hq
    | some r =>
      obtain ⟨l₁, l₂, hl, -, -, -, hmod⟩ := List.find?_split hfind
      rw [hmod, List.mem_append, List.mem_cons] at hq
      obtain hq | rfl | hq := hq
      · exact h q (hl ▸ List.mem_append_left _ hq)
      · exact hp
      · exact h q (hl ▸ List.mem_append_right _ (List.mem_cons_of_mem _ hq))
  rxCq := (refl h).rxCq
  txCq := (refl h).txCq

/-- **A send or a one-sided operation completes** with the flags it was opened with. -/
theorem pendingComplete (h : ep.Plain) {p : Pending} (hp : hasFlag p.flags utilFlagAux = false) :
    ep.Tells (rdsPendingComplete ep p) := by
  rw [rdsPendingComplete_eq]
  exact ⟨rfl, fun q hq => h q (List.mem_of_mem_eraseP hq), (refl h).rxCq, _, rfl,
    forall_mem_ite_nil (txEntries_fit _ _ _ hp)⟩

/-! ### The socket -/

theorem sendFin (env : Env) (h : ep.Plain) (peer : SockAddr) (id : UInt64) :
    ep.Tells (rdsSendFin env ep peer id) := by
  obtain heq | heq | ⟨-, t, heq⟩ := rdsSendFin_cases env ep peer id
  · rw [heq]
    exact of_same h rfl rfl rfl rfl
  · rw [heq]
    exact of_same h rfl rfl rfl rfl
  · rw [heq]
    exact of_same h rfl rfl rfl rfl

/-! ### Taking in -/

/-- **A rendezvous receive completes** with the flags of its request. -/
theorem finalize (env : Env) (h : ep.Plain) {p : Pending}
    (hp : hasFlag p.flags utilFlagAux = false) : ep.Tells (rdsRndzvRxFinalize env ep p) := by
  have hfin := sendFin env h p.peer p.peerId
  rw [rdsRndzvRxFinalize_eq env ep p rfl]
  refine hfin.trans ⟨rfl, hfin.plain, ⟨_, rfl, ?_⟩, (refl hfin.plain).txCq⟩
  exact forall_mem_ite_nil (rxEntries_fit _ _ _ _ _ _ hp)

/-- Reads are issued or parked, and the operation keeps its flags. -/
theorem foldl_issueRead (env : Env) (peer : SockAddr) (rts : UInt64) (rs : List ReadReq)
    (s : Ep × Pending) (h : s.1.Plain) :
    s.1.Tells (rs.foldl (rdsIssueRead env peer rts) s).1
      ∧ (rs.foldl (rdsIssueRead env peer rts) s).2.flags = s.2.flags :=
  rdsIssueReads_keeps (P := fun e p => s.1.Tells e ∧ p.flags = s.2.flags)
    (fun _ _ _ _ h => ⟨h.1.same rfl rfl rfl rfl, h.2⟩)
    (fun _ _ _ _ h => ⟨h.1.same rfl rfl rfl rfl, h.2⟩)
    (fun _ p _ e h => ⟨h.1.same rfl rfl rfl rfl, (p.fail_flags e).trans h.2⟩) rs ⟨refl h, rfl⟩

/-- A rendezvous receive reports at once only if it cannot be opened or has nothing to read. -/
theorem startRndzvRead (env : Env) (h : ep.Plain) (rx : RxEntry) (hdr : Hdr) (segs : List Seg)
    (peer : SockAddr) (src : UInt64) :
    ep.Tells (rdsStartRndzvRead env ep rx hdr segs peer src) := by
  refine rdsStartRndzvRead_elim (fun _ => ?_) (fun _ e q hreads => ?_)
  · have htick : ep.Tells { ep with tick := ep.tick + 1 } := of_same h rfl rfl rfl rfl
    have hfin := sendFin env htick.plain peer hdr.id
    rw [rdsCqWriteRx_eq]
    exact htick.trans (hfin.trans ⟨rfl, hfin.plain,
      ⟨_, rfl, rxEntries_fit _ _ _ _ _ _ (hasFlag_rdsRxFlags hdr)⟩, (refl hfin.plain).txCq⟩)
  have hopen : ep.Tells (ep.rxOpened rx hdr) := of_same h rfl rfl rfl rfl
  obtain ⟨hissue, hflags⟩ := foldl_issueRead env peer hdr.id
    (rndzvReads rx.iov (min hdr.size.toNat rx.totalLen) 0 segs)
    (ep.rxOpened rx hdr, ep.rxOperation rx hdr peer src) hopen.plain
  rw [hreads] at hissue hflags
  have hq : hasFlag q.flags utilFlagAux = false := by
    rw [hflags]
    exact hasFlag_rdsRxFlags hdr
  split
  · exact hopen.trans (hissue.trans (finalize env hissue.plain hq))
  · exact hopen.trans (hissue.trans (linkPending hissue.plain hq))

/-- **An eager message completes** the receive it meets. -/
theorem deliver (env : Env) (h : ep.Plain) (rx : RxEntry) (m : Unexp) :
    ep.Tells (rdsDeliver env ep rx m) := by
  have hlog := log h (.paired m rx)
  refine rdsDeliver_elim (fun _ => ⟨rfl, h, ⟨_, rfl, ?_⟩, (refl h).txCq⟩)
    (fun _ => hlog.trans (startRndzvRead env hlog.plain _ _ _ _ _))
  exact forall_mem_ite_nil (rxEntries_fit _ _ _ _ _ _ (hasFlag_rdsRxFlags m.hdr))

theorem handleMessage (env : Env) (h : ep.Plain) (m : Unexp) :
    ep.Tells (rdsHandleMessage env ep m) := by
  have hsame (t : ℕ) : ep.Tells { ep with arrivals := ep.arrivals + 1, tick := t } :=
    of_same h rfl rfl rfl rfl
  refine rdsHandleMessage_elim (fun rx _ => ?_) (fun _ t => of_same h rfl rfl rfl rfl)
    (fun _ _ t => (hsame t).trans (sendFin env (hsame t).plain _ _)) (fun _ t => hsame t)
  refine (deliver env ?_ rx m).start rfl rfl rfl
  exact h

/-- What the ring does besides messages reports nothing. -/
theorem ringSide (h : ep.Plain) (hside : ep.RingSide e) : ep.Tells e := by
  refine of_same h ?_ ?_ ?_ ?_
  · rw [hside.eq]
  · rw [hside.eq]
  · rw [hside.eq]
  · rw [hside.eq]

/-- A `FIN` completes its send, a handshake reports nothing. -/
theorem handleInbound (env : Env) (h : ep.Plain) (hdr : Hdr) (payload : List UInt8)
    (src : SockAddr) (srcFi : UInt64) :
    ep.Tells (rdsHandleInbound env ep hdr payload src srcFi) := by
  refine rdsHandleInbound_elim (refl h) (fun p hfind _ => ?_) (fun _ _ => ?_)
    (fun _ _ => handleMessage env h _)
  · exact pendingComplete h (h p (List.mem_of_find?_eq_some hfind))
  · have hquiet : ep.RingQuiet .any (rdsRingHandleCtrl env ep hdr payload srcFi) :=
      rdsRingHandleCtrl_quiet env ep hdr payload srcFi (fun _ _ => trivial)
    exact ringSide h hquiet.toRingSide

theorem ringDeliver (env : Env) (h : ep.Plain) (sa : SockAddr) (addr : UInt64) (slot : RingSlot) :
    ep.Tells (rdsRingDeliver env ep sa addr slot) := by
  exact rdsRingDeliver_elim (refl h) (fun hdr payload => handleInbound env h hdr payload sa addr)

theorem setPeer (h : ep.Plain) (p : Peer) : ep.Tells (ep.setPeer p) := of_same h rfl rfl rfl rfl

theorem returnCredit (env : Env) (h : ep.Plain) (p : Peer) :
    ep.Tells (rdsRingReturnCredit env ep p) := by
  obtain ⟨-, heq⟩ | ⟨-, heq⟩ := rdsRingReturnCredit_cases env ep p
  · rw [heq]
    exact of_same h rfl rfl rfl rfl
  · rw [heq]
    exact of_same h rfl rfl rfl rfl

theorem flushCredit (env : Env) (h : ep.Plain) (addr : UInt64) :
    ep.Tells (rdsRingFlushCredit env ep addr) := by
  exact rdsRingFlushCredit_elim (refl h) (fun p _ => returnCredit env h p)

/-- A slot is reported like a datagram. -/
theorem pollSlot (env : Env) (h : ep.Plain) (addr : UInt64) :
    ep.Tells ((rdsRingPollSlot env ep addr).getD ep) := by
  obtain ⟨hnone, -⟩ | ⟨p, slot, e, -, -, he, hlast⟩ := rdsRingPollSlot_cases env ep addr
  · rw [hnone]
    exact refl h
  rw [he]
  have hack := setPeer h (p.absorbAck slot.ack)
  have hdeliver := hack.trans (ringDeliver env hack.plain p.sa p.addr slot)
  obtain rfl | ⟨q, -, rfl | rfl⟩ := hlast
  · exact hdeliver
  · exact hdeliver.trans (setPeer hdeliver.plain _)
  · have hpass := hdeliver.trans (setPeer hdeliver.plain { q with rxHead := q.rxHead + 1 })
    exact hpass.trans (returnCredit env hpass.plain _)

theorem recvDgram (env : Env) (h : ep.Plain) (src : SockAddr) (bytes : List UInt8) :
    ep.Tells (rdsRecvDgram env ep src bytes) := by
  exact rdsRecvDgram_elim (refl h) (handleInbound env h _ _ _ _)

/-! ### Posting and sending -/

theorem postRecv (env : Env) (h : ep.Plain) (iov : List Iovec) (addr tag ignore : UInt64)
    (context : ℕ) (flags : UInt64) (tagged : Bool) :
    ep.Tells (rdsPostRecv env ep iov addr tag ignore context flags tagged).1 := by
  refine rdsPostRecv_elim (fun _ => refl h) (fun rx _ ux _ => ?_)
    (fun _ _ _ _ => of_same h rfl rfl rfl rfl) (fun _ _ _ => of_same h rfl rfl rfl rfl)
  refine (deliver env ?_ rx ux).start rfl rfl rfl
  exact h

/-- A receive that is cancelled is reported without a source. -/
theorem cancel (h : ep.Plain) (context : ℕ) : ep.Tells (rdsEpCancel ep context).1 := by
  refine rdsEpCancel_elim (refl h) (fun k rx _ => ⟨rfl, h, ⟨_, rfl, fun x hx => ?_⟩, (refl h).txCq⟩)
  split at hx
  · rw [List.mem_singleton.mp hx]
    refine ⟨?_, fun hsrc => by cases hsrc⟩
    show hasFlag (fiRecv ||| (if hasFlag rx.flags fiTagged then fiTagged else fiMsg)) _ = false
    split
    · decide
    · decide
  · cases hx

/-- A ring that is tried takes the message with its completion, or reports nothing. -/
theorem ringSend {env : Env} (h : ep.Plain) {payload : List UInt8} {dest tag data : UInt64}
    {context : ℕ} {flags : UInt64} {tagged genComp : Bool} {op : UInt8} {ret : Ret}
    (hsend : rdsRingSend env ep payload dest tag data context flags tagged genComp op = (e, ret)) :
    ep.Tells e := by
  cases ret with
  | err err => exact ringSide h (rdsRingSend_refused hsend)
  | ok =>
    obtain ⟨-, e₀, p, hside, heq⟩ := rdsRingSend_slot hsend
    have hquiet := ringSide h hside
    rw [heq]
    exact hquiet.trans ⟨rfl, hquiet.plain, (refl hquiet.plain).rxCq, _, rfl,
      forall_mem_ite_nil (txEntries_fit _ _ _ (hasFlag_txFlags tagged))⟩

/-- An eager message is reported as soon as it is sent. -/
theorem sendEager (env : Env) (h : ep.Plain) (iov : List Iovec) (dest : SockAddr)
    (tag data : UInt64) (context : ℕ) (flags : UInt64) (tagged genComp : Bool) :
    ep.Tells (rdsSendEager env ep iov dest tag data context flags tagged genComp).1 :=
  rdsSendEager_elim (fun _ _ _ _ _ => of_same h rfl rfl rfl rfl)
    ⟨rfl, h, (refl h).rxCq, _, rfl, forall_mem_ite_nil
      (txEntries_fit _ _ _ (hasFlag_txFlags tagged))⟩

/-- A request makes its send pending. -/
theorem sendRts (env : Env) (h : ep.Plain) {p : Pending}
    (hp : hasFlag p.flags utilFlagAux = false) (bytes : List UInt8) (dest : SockAddr)
    (destAddr : UInt64) : ep.Tells (rdsSendRts env ep p bytes dest destAddr).1 := by
  have hlink {e e' : Ep} (htells : ep.Tells e) (hcfg : e'.cfg = e.cfg)
      (hpending : e'.pending = e.pending ++ [p]) (hrx : e'.rxCq = e.rxCq)
      (htx : e'.txCq = e.txCq) : ep.Tells e' :=
    (htells.trans (linkPending htells.plain hp)).same hcfg hpending hrx htx
  exact rdsSendRts_elim
    (fun _ _ hsend => (ringSend h hsend).same rfl rfl rfl rfl)
    (fun _ _ hsend => (ringSend h hsend).same rfl rfl rfl rfl)
    (fun _ hsend => hlink (ringSend h hsend) rfl rfl rfl rfl)
    (fun _ hsend => hlink (ringSend h hsend) rfl rfl rfl rfl)

theorem sendRndzv (env : Env) (h : ep.Plain) (iov : List Iovec) (dest : SockAddr)
    (tag data : UInt64) (context : ℕ) (flags : UInt64) (tagged genComp : Bool)
    (destAddr : UInt64) :
    ep.Tells (rdsSendRndzv env ep iov dest tag data context flags tagged genComp destAddr).1 := by
  refine rdsSendRndzv_elim (fun _ _ => of_same h rfl rfl rfl rfl)
    (fun _ _ _ _ _ _ _ => of_same h rfl rfl rfl rfl) (fun _ _ _ _ _ _ _ => ?_)
  refine (sendRts env ?_ ?_ _ dest destAddr).start rfl rfl rfl
  · exact h
  · exact hasFlag_txFlags tagged

/-- **A send** tells of an eager message at once and of a long one when its `FIN` arrives. -/
theorem genericSend (env : Env) (h : ep.Plain) (iov : List Iovec) (destAddr tag data : UInt64)
    (context : ℕ) (flags : UInt64) (tagged : Bool) :
    ep.Tells (rdsGenericSend env ep iov destAddr tag data context flags tagged).1 :=
  rdsGenericSend_elim (fun _ => refl h) (fun _ _ _ _ _ _ _ _ hsend _ => ringSend h hsend)
    (fun _ _ _ _ _ _ _ hsend =>
      (ringSend h hsend).trans (sendEager env (ringSend h hsend).plain _ _ _ _ _ _ _ _))
    (fun _ _ _ _ _ _ _ => sendRndzv env h _ _ _ _ _ _ _ _ _)

theorem genericInject (env : Env) (h : ep.Plain) (buf len : ℕ) (destAddr tag : UInt64)
    (tagged : Bool) : ep.Tells (rdsGenericInject env ep buf len destAddr tag tagged).1 :=
  rdsGenericInject_elim (fun _ => refl h) (refl h) (fun _ _ _ _ _ hsend _ => ringSend h hsend)
    (fun _ _ _ _ hsend =>
      (ringSend h hsend).trans (sendEager env (ringSend h hsend).plain _ _ _ _ _ _ _ _))

/-! ### One-sided operations -/

/-- A one-sided operation is reported when its last piece is notified. -/
theorem startsRma (h : ep.Plain) (hstarts : ep.StartsRma e) : ep.Tells e := by
  cases hstarts with
  | refused t => exact of_same h rfl rfl rfl rfl
  | issued t ops => exact of_same h rfl rfl rfl rfl
  | pending t ops p _ _ hflags _ =>
    obtain ⟨isWrite, hflags⟩ := hflags
    have hissued : ep.Tells (ep.issued t ops) := of_same h rfl rfl rfl rfl
    refine hissued.trans (linkPending hissued.plain ?_)
    rw [hflags]
    exact hasFlag_rmaFlags isWrite

/-! ### Notifications and the deferred queue -/

/-- **A notification** reports if it is the last of its operation. -/
theorem handleRdmaNotify (env : Env) (h : ep.Plain) (token : UInt64) (status : ℤ) :
    ep.Tells (rdsHandleRdmaNotify env ep token status) := by
  have hlog (p : Pending) : ep.Tells { ep with trace := ep.trace ++ p.acks status } :=
    of_same h rfl rfl rfl rfl
  have hp (p : Pending) (hfind : rdsPendingFind ep p.id = some p) :=
    h p (List.mem_of_find?_eq_some hfind)
  refine rdsHandleRdmaNotify_elim (refl h) (fun p n hfind _ => ?_) (fun p hfind _ => ?_)
    (fun p hfind _ => ?_)
  · exact (hlog p).trans (storePending (hlog p).plain (hp p hfind))
  · exact (hlog p).trans (pendingComplete (hlog p).plain (hp p hfind))
  · have hfinal := finalize env (hlog p).plain (p := { p with
      error := (p.heed status).error, segRemaining := p.segRemaining - 1 }) (hp p hfind)
    exact (hlog p).trans (hfinal.trans (unlinkPending hfinal.plain _))

/-- A retry reports if it finishes its receive. -/
theorem retryDeferred (env : Env) (h : ep.Plain) (d : Deferred) :
    ep.Tells (rdsRetryDeferred env ep d).1 := by
  refine rdsRetryDeferred_elim (fun _ _ => of_same h rfl rfl rfl rfl)
    (fun _ => of_same h rfl rfl rfl rfl) (fun _ _ => of_same h rfl rfl rfl rfl) (fun _ => log h _)
    (fun p e q hfind _ hcases => ?_)
  have hp := h p (List.mem_of_find?_eq_some hfind)
  have he : ep.Tells e ∧ hasFlag q.flags utilFlagAux = false := by
    obtain ⟨t, op, rfl, rfl⟩ | ⟨t, err, rfl, rfl⟩ := hcases
    · exact ⟨of_same h rfl rfl rfl rfl, hp⟩
    · refine ⟨of_same h rfl rfl rfl rfl, ?_⟩
      rw [Pending.fail_flags]
      exact hp
  dsimp only
  split
  · have hfinal := finalize env he.1.plain he.2
    exact he.1.trans (hfinal.trans (unlinkPending hfinal.plain _))
  · exact he.1.trans (storePending he.1.plain he.2)

/-- So does the walk of the deferred queue. -/
theorem progressDeferred (env : Env) (h : ep.Plain) : ep.Tells (rdsProgressDeferred env ep).1 :=
  rdsProgressDeferred_keeps (fun _ _ h => h.same rfl rfl rfl rfl)
    (fun _ d h => h.trans (retryDeferred env h.plain d)) (refl h)

/-- **Every action only adds completions, and they fit.** -/
theorem act (h : ep.Plain) (a : EpAct) : ep.Tells (ep.act a) := by
  cases a with
  | send env iov destAddr tag data context flags tagged =>
    exact genericSend env h iov destAddr tag data context flags tagged
  | inject env buf len destAddr tag tagged => exact genericInject env h buf len destAddr tag tagged
  | postRecv env iov addr tag ignore context flags tagged =>
    exact postRecv env h iov addr tag ignore context flags tagged
  | cancel context => exact cancel h context
  | rma env iov remoteFi remoteOff key isWrite context flags =>
    exact startsRma h
      (rdsRmaCommon_starts env ep iov remoteFi remoteOff key isWrite context flags)
  | injectWrite env buf len destAddr addr key =>
    exact startsRma h (rdsInjectWrite_starts env ep buf len destAddr addr key)
  | recv env src bytes => exact recvDgram env h src bytes
  | notify env op status =>
    refine (handleRdmaNotify env ?_ op.token status).start rfl rfl rfl
    exact h
  | retry env => exact progressDeferred env h
  | poll env addr => exact pollSlot env h addr
  | flush env addr => exact flushCredit env h addr
  | landSlot | landCredit | shareDomain => exact of_same h rfl rfl rfl rfl

/-- So does a run of actions. -/
theorem run (h : ep.Plain) (acts : List EpAct) : ep.Tells (acts.foldl Ep.act ep) := by
  induction acts generalizing ep with
  | nil => exact refl h
  | cons a acts ih =>
    have hone := act h a
    exact hone.trans (ih hone.plain)

/-- So does a call. -/
theorem call (h : ep.Plain) (c : EpCall) (hallow : ep.Allows c) : ep.Tells (ep.call c) := by
  obtain ⟨acts, -, heq⟩ := Ep.call_run ep c hallow
  rw [← heq]
  exact run h acts

end Ep.Tells

/-! ## The endpoint and its queues -/

/-- The provider writes completions one by one; `alloc` says of each whether memory for the
auxiliary list would be given. -/
def CqHistory.writes : (ℕ → Bool) → List CqEntry → CqHistory → CqHistory
  | _, [], s => s
  | alloc, e :: es, s => writes (fun n => alloc (n + 1)) es (s.step (.write (alloc 0) e))

/-- The operations of the application. -/
def CqOp.isRead : CqOp → Bool
  | .write .. => false
  | _ => true

/-- An endpoint with the queues bound to it, one for what it sends and one for what it
receives. -/
structure Driven where
  ep : Ep
  tx : CqHistory
  rx : CqHistory

/-- A call to the endpoint, or a read of one of its queues. `fi_cq_readfrom` is a pass of
progress followed by a read. -/
inductive DrivenAct where
  | call (c : EpCall) (txAlloc rxAlloc : ℕ → Bool)
  | onTx (op : CqOp)
  | onRx (op : CqOp)

namespace Driven

/-- What a call reports is written to the queues. -/
def act (d : Driven) : DrivenAct → Driven
  | .call c txAlloc rxAlloc =>
    { ep := d.ep.call c
      tx := d.tx.writes txAlloc ((d.ep.call c).txCq.drop d.ep.txCq.length)
      rx := d.rx.writes rxAlloc ((d.ep.call c).rxCq.drop d.ep.rxCq.length) }
  | .onTx op => { d with tx := d.tx.step op }
  | .onRx op => { d with rx := d.rx.step op }

/-- What is asked of an action; if nothing is to be lost, memory is given. -/
def Admits (lossless : Prop) (d : Driven) : DrivenAct → Prop
  | .call c txAlloc rxAlloc => d.ep.Allows c
      ∧ (lossless → (∀ n, txAlloc n = true) ∧ ∀ n, rxAlloc n = true)
  | .onTx op => op.isRead = true
  | .onRx op => op.isRead = true

end Driven

namespace CqHistory

variable {format : CqFormat} {hasSrc : Bool} {s : CqHistory}

/-- Completions that fit are written in order; one is missing only if memory was. -/
theorem writes_fifo (es : List CqEntry) (alloc : ℕ → Bool)
    (hfit : ∀ e ∈ es, hasFlag e.flags utilFlagAux = false ∧ (e.src.isSome = true → hasSrc = true))
    (h : ∃ cells gone, s.Fifo format hasSrc cells gone) :
    (∃ cells gone, (s.writes alloc es).Fifo format hasSrc cells gone)
      ∧ ∃ l, (s.writes alloc es).accepted = s.accepted ++ l ∧ l.Sublist es
        ∧ ((∀ n, alloc n = true) → l = es) := by
  induction es generalizing s alloc with
  | nil => exact ⟨h, [], (List.append_nil _).symm, .slnil, fun _ => rfl⟩
  | cons e es ih =>
    obtain ⟨cells, gone, hfifo⟩ := h
    obtain ⟨hflag, hsrc⟩ := hfit e List.mem_cons_self
    have hadm : s.Admits (.write (alloc 0) e) :=
      ⟨hflag, fun hsome => hfifo.src_eq.trans (hsrc hsome)⟩
    obtain ⟨hrest, l, hl, hsub, hall⟩ := ih (fun n => alloc (n + 1))
      (fun e' he' => hfit e' (List.mem_cons_of_mem _ he')) (hfifo.step _ hadm)
    refine ⟨hrest, ?_⟩
    have hacc : (s.step (.write (alloc 0) e)).accepted
        = if (s.cq.write (alloc 0) e).2 = .ok then s.accepted ++ [e] else s.accepted := rfl
    show ∃ l, (CqHistory.writes _ es (s.step (.write (alloc 0) e))).accepted = _ ∧ _
    rw [hl, hacc]
    obtain ⟨hok, -⟩ | ⟨halloc, hret, -⟩ := hfifo.holds.write (alloc 0) hflag
    · rw [if_pos hok]
      exact ⟨e :: l, List.append_assoc _ _ _, hsub.cons_cons e,
        fun hmem => congrArg _ (hall fun n => hmem (n + 1))⟩
    · rw [if_neg hret]
      refine ⟨l, rfl, hsub.cons e, fun hmem => ?_⟩
      rw [hmem 0] at halloc
      cases halloc

/-- The application's reads accept nothing. -/
theorem accepted_step {op : CqOp} (hop : op.isRead = true) : (s.step op).accepted = s.accepted := by
  cases op with
  | write => cases hop
  | read | readerr => rfl

/-- **A queue delivers what it was told**: what the application was handed are the first of
the completions, in order and each once, and the others wait, the next one being handed out by
the next call. These are the completions whose write was accepted, so that one whose write was
refused is lost; none is unless memory was missing. -/
def Delivers (lossless : Prop) (format : CqFormat) (hasSrc : Bool) (s : CqHistory)
    (told : List CqEntry) : Prop :=
  ∃ gone waiting, s.accepted = gone ++ waiting
    ∧ (gone ++ waiting).Sublist told ∧ (lossless → gone ++ waiting = told)
    ∧ List.Forall₂ (fun e t => CqEntry.HandedAs e format hasSrc t) gone s.taken
    ∧ (∀ e es, waiting = e :: es → e.err = 0 → ∀ count, count ≠ 0 →
        ∃ t ts, (ofiCqReadEntries s.cq count).2 = .entries (t :: ts)
          ∧ e.HandedAs format hasSrc t)
    ∧ ∀ e es, waiting = e :: es → e.err ≠ 0 →
        (∀ count, count ≠ 0 → (ofiCqReadEntries s.cq count).2 = .avail)
          ∧ (ofiCqReaderr s.cq).2 = some (.error e.slot e.err)

/-- What relates a queue to what its endpoint reported. -/
structure Follows (lossless : Prop) (format : CqFormat) (hasSrc : Bool) (s : CqHistory)
    (told : List CqEntry) : Prop where
  fifo : ∃ cells gone, s.Fifo format hasSrc cells gone
  sublist : s.accepted.Sublist told
  all : lossless → s.accepted = told

variable {lossless : Prop} {told : List CqEntry}

theorem Follows.delivers (h : s.Follows lossless format hasSrc told) :
    s.Delivers lossless format hasSrc told := by
  obtain ⟨⟨cells, gone, hfifo⟩, hsub, hall⟩ := h
  rw [hfifo.accepted] at hsub hall
  exact ⟨gone, CqCell.waiting cells, hfifo.accepted, hsub, hall, hfifo.handed,
    fun e es hwaiting herr count hcount => hfifo.read_next hwaiting herr hcount,
    fun e es hwaiting herr => hfifo.readerr_next hwaiting herr⟩

/-- The application reads. -/
theorem Follows.read (h : s.Follows lossless format hasSrc told) {op : CqOp}
    (hop : op.isRead = true) : (s.step op).Follows lossless format hasSrc told := by
  obtain ⟨⟨cells, gone, hfifo⟩, hsub, hall⟩ := h
  rw [← accepted_step hop] at hsub hall
  refine ⟨hfifo.step op ?_, hsub, hall⟩
  cases op with
  | write => cases hop
  | read | readerr => trivial

/-- The endpoint reports more. -/
theorem Follows.report (h : s.Follows lossless format hasSrc told) {more : List CqEntry}
    {told' : List CqEntry} (htold : told' = told ++ more) {alloc : ℕ → Bool}
    (halloc : lossless → ∀ n, alloc n = true)
    (hfit : ∀ e ∈ more, hasFlag e.flags utilFlagAux = false
      ∧ (e.src.isSome = true → hasSrc = true)) :
    (s.writes alloc (told'.drop told.length)).Follows lossless format hasSrc told' := by
  rw [htold, List.drop_left]
  obtain ⟨hfifo, l, hl, hsub, hall⟩ := writes_fifo more alloc hfit h.fifo
  refine ⟨hfifo, ?_, fun hless => ?_⟩
  · rw [hl]
    exact h.sublist.append hsub
  · rw [hl, h.all hless, hall (halloc hless)]

end CqHistory

namespace Driven

/-- An endpoint as it is opened, with new queues. The queues of a domain keep source addresses
or do not. -/
def init (cfg : EpCfg) (domain : Domain) (tx rx : CqHistory) : Driven := ⟨.init cfg domain, tx, rx⟩

/-- What holds of an endpoint and its queues. -/
structure Inv (lossless : Prop) (cfg : EpCfg) (hasSrc : Bool) (txFormat rxFormat : CqFormat)
    (d : Driven) : Prop where
  cfg_eq : d.ep.cfg = cfg
  plain : d.ep.Plain
  tx : d.tx.Follows lossless txFormat hasSrc d.ep.txCq
  rx : d.rx.Follows lossless rxFormat hasSrc d.ep.rxCq

theorem Inv.act {lossless : Prop} {cfg : EpCfg} {hasSrc : Bool} {txFormat rxFormat : CqFormat}
    (hsrc : hasFlag cfg.caps fiSource = true → hasSrc = true) (d : Driven) (a : DrivenAct)
    (h : d.Inv lossless cfg hasSrc txFormat rxFormat) (hadm : d.Admits lossless a) :
    (d.act a).Inv lossless cfg hasSrc txFormat rxFormat := by
  cases a with
  | onTx op => exact ⟨h.cfg_eq, h.plain, h.tx.read hadm, h.rx⟩
  | onRx op => exact ⟨h.cfg_eq, h.plain, h.tx, h.rx.read hadm⟩
  | call c txAlloc rxAlloc =>
    obtain ⟨hallow, halloc⟩ := hadm
    have htells := Ep.Tells.call h.plain c hallow
    obtain ⟨tl, htl, htfit⟩ := htells.txCq
    obtain ⟨rl, hrl, hrfit⟩ := htells.rxCq
    rw [h.cfg_eq] at htfit hrfit
    exact ⟨htells.cfg.trans h.cfg_eq, htells.plain,
      h.tx.report htl (fun hless => (halloc hless).1)
        (fun e he => ⟨(htfit e he).1, fun hsome => hsrc ((htfit e he).2 hsome)⟩),
      h.rx.report hrl (fun hless => (halloc hless).2)
        (fun e he => ⟨(hrfit e he).1, fun hsome => hsrc ((hrfit e he).2 hsome)⟩)⟩

end Driven

/-- **Completions reach the application.** Drive an endpoint through its entry points and
passes of progress, and read the queues bound to it, in any order. What the application was
handed from a queue are the first completions the endpoint reported to it, in the order of the
reports and each once, and the others wait there. A completion whose write was refused is lost,
since the provider ignores the answer; none is refused unless memory for the auxiliary list is.
The queues may be of any size, and keep source addresses if the endpoint was asked for them
(`FI_SOURCE`). -/
theorem completions_reach_the_application (lossless : Prop) (cfg : EpCfg) (domain : Domain)
    (txSize rxSize : UInt64) (txPow2 : ∃ k, txSize.toNat = 2 ^ k)
    (rxPow2 : ∃ k, rxSize.toNat = 2 ^ k) (hasSrc : Bool)
    (hsrc : hasFlag cfg.caps fiSource = true → hasSrc = true) (txFormat rxFormat : CqFormat)
    (acts : List DrivenAct)
    (hacts : Along Driven.act (Driven.Admits lossless)
      (Driven.init cfg domain (.init txSize txPow2 hasSrc txFormat)
        (.init rxSize rxPow2 hasSrc rxFormat)) acts) :
    let d := acts.foldl Driven.act (Driven.init cfg domain (.init txSize txPow2 hasSrc txFormat)
      (.init rxSize rxPow2 hasSrc rxFormat))
    d.tx.Delivers lossless txFormat hasSrc d.ep.txCq
      ∧ d.rx.Delivers lossless rxFormat hasSrc d.ep.rxCq := by
  intro d
  have hstart : (Driven.init cfg domain (.init txSize txPow2 hasSrc txFormat)
      (.init rxSize rxPow2 hasSrc rxFormat)).Inv lossless cfg hasSrc txFormat rxFormat :=
    ⟨rfl, fun p hp => (List.not_mem_nil hp).elim,
      ⟨⟨[], [], .init txSize txPow2 hasSrc txFormat⟩, .slnil, fun _ => rfl⟩,
      ⟨⟨[], [], .init rxSize rxPow2 hasSrc rxFormat⟩, .slnil, fun _ => rfl⟩⟩
  have hinv := Along.invariant (Driven.Inv.act hsrc) hstart hacts
  exact ⟨hinv.tx.delivers, hinv.rx.delivers⟩

/-- A receive is posted, a pass of progress takes in the eager message it matches, and the
application reads its queue. -/
def receiveAndRead : List DrivenAct :=
  let calm := Env.calm (fun _ _ => .error fiEnomem)
  [.call (.direct (.postRecv calm [⟨4096, 100⟩] fiAddrUnspec 0 0 7 0 false)) (fun _ => true)
      (fun _ => true),
    .call (.progress calm [⟨[], 20, (eagerHdr false 0 0 0 3).encode ++ [1, 2, 3], false⟩])
      (fun _ => true) (fun _ => true),
    .onRx (.read 4)]

/-- The application has the one completion that was reported. -/
theorem receiveAndRead_delivers :
    let d := receiveAndRead.foldl Driven.act (Driven.init (EpCfg.standard false [10, 20] 10)
      (Domain.opened false (some 3) 0 0) (.init 2 ⟨1, rfl⟩ true .tagged)
      (.init 2 ⟨1, rfl⟩ true .tagged))
    d.ep.rxCq.length = 1 ∧ d.rx.taken.length = 1
      ∧ d.rx.Delivers True .tagged true d.ep.rxCq := by
  intro d
  refine ⟨by decide +kernel, by decide +kernel, ?_⟩
  refine (completions_reach_the_application True _ _ 2 2 ⟨1, rfl⟩ ⟨1, rfl⟩ true (fun _ => rfl)
    .tagged .tagged receiveAndRead ?_).2
  exact ⟨⟨rfl, fun _ => ⟨fun _ => rfl, fun _ => rfl⟩⟩,
    ⟨⟨trivial, trivial⟩, fun _ => ⟨fun _ => rfl, fun _ => rfl⟩⟩, rfl, trivial⟩
