import RdsProv.Conservation

/-!
# Source registrations outlive the reads

The sender of a rendezvous message keeps its source registered until the `FIN`
comes; the receiver sends the `FIN` when it has nothing left to read. The reads of
one receive may be issued at once, parked, issued again or refused for good, and
the `FIN` may be sent from three places. What makes it safe wherever it is sent is
that a receive and a `FIN` of one send are both its token, of which there is at
most one: with a `FIN` under way there is no receive left that the read could
belong to (`sources_outlive_reads`).

Nothing is assumed about what the sockets refuse: reads and `FIN`s may fail for
good, allocations may fail and datagrams may be lost. As before, ids must not come
round (`read_outlives_source`).
-/

/-- A read made for the request of a sender is outstanding or parked. -/
def Ep.ReadsFor (ep : Ep) (s : SockAddr) (i : UInt64) : Prop :=
  (∃ op ∈ ep.inflight, op.dst = s ∧ op.rts = some i)
    ∨ ∃ cookie remoteOff liov id, .read s cookie remoteOff liov id i ∈ ep.deferred

/-- The `FIN` of a send is handled by its sender. -/
def WorldAct.HandlesFin {ι : Type} (S : ι) (i : UInt64) : WorldAct ι → Prop
  | .deliver _ _ k d => k = S ∧ ∃ peer, d.ctl? = some (.fin peer i)
  | .poll _ _ k _ op => k = S ∧ ∃ peer, op.ctl? = some (.fin peer i)
  | _ => False

/-- **A read belongs to a receive**, which reads from the same sender. -/
theorem Ep.Sound.receivesFor_pos {ep : Ep} (h : ep.Sound) {s : SockAddr} {i : UInt64}
    (hreads : ep.ReadsFor s i) : 0 < ep.receivesFor s i := by
  rcases hreads with ⟨op, hop, hdst, hrts⟩ | ⟨cookie, remoteOff, liov, id, hd⟩
  · obtain ⟨p, hp, -, ⟨htype, hpeer, hpeerId⟩ | ⟨-, hnone⟩⟩ := h.ok.owned op hop
    · refine List.countP_pos_iff.mpr ⟨p, Multiset.mem_coe.mp hp, decide_eq_true ?_⟩
      exact ⟨htype, hpeer.symm.trans hdst, Option.some.inj (hpeerId.symm.trans hrts)⟩
    · rw [hrts] at hnone
      cases hnone
  · obtain ⟨p, hp, _, _, _, howner, htype⟩ := h.ok.parkedOwned _ hd nofun
    cases howner
    exact List.countP_pos_iff.mpr ⟨p, Multiset.mem_coe.mp hp, decide_eq_true ⟨htype, rfl, rfl⟩⟩

namespace World

variable {ι : Type} [Fintype ι] [DecidableEq ι] {lossy : Prop} {addr : ι → SockAddr}
  {w : World ι}

omit [DecidableEq ι] in
/-- A send has at most one token. -/
theorem Inv.tokens_le (h : w.Inv lossy addr) (haddr : Function.Injective addr) (S : ι)
    (i : UInt64) : w.tokens S i ≤ (w S).sendsPending i
      ∧ (w S).trace.countP (fun e => e.closesTx i) + (w S).sendsPending i ≤ 1 := by
  refine ⟨?_, ?_⟩
  · rw [tokens_eq h.self haddr, sends_eq haddr]
    exact (h.balanced (addr S) i).1
  · rw [← Ep.countP_log (w S) Ep.booked_of_closesTx, ← Ep.pendingOf_eq, (h.sound S).history.tx]
    exact (h.sound S).history.txOnce i

omit [DecidableEq ι] in
/-- A receive and a `FIN` under way are tokens, wherever they are. -/
theorem tokens_ge (w : World ι) (S R Q : ι) (i : UInt64) :
    (w R).receivesFor (w S).cfg.self i + (w Q).finsOut (w S).cfg.self i ≤ w.tokens S i := by
  have hreceives := Finset.single_le_sum (f := fun R => (w R).receivesFor (w S).cfg.self i)
    (fun _ _ => Nat.zero_le _) (Finset.mem_univ R)
  have hfins := Finset.single_le_sum (f := fun R => (w R).finsOut (w S).cfg.self i)
    (fun _ _ => Nat.zero_le _) (Finset.mem_univ Q)
  unfold World.tokens
  rw [Finset.sum_add_distrib, Finset.sum_add_distrib, Finset.sum_add_distrib]
  omega

omit [Fintype ι] [DecidableEq ι] in
/-- A `FIN` that can be handled is under way. -/
theorem finsOut_pos {a : WorldAct ι} (hadm : w.Admits lossy a) {S : ι} {i : UInt64}
    (hfin : a.HandlesFin S i) : ∃ Q, 0 < (w Q).finsOut (w S).cfg.self i := by
  cases a with
  | own j a => exact hfin.elim
  | lose j d => exact hfin.elim
  | deliver env j k d =>
    obtain ⟨rfl, peer, hctl⟩ := hfin
    obtain ⟨hd, hdst, -⟩ := hadm
    rw [← hdst, Dgram.dst_of_fin hctl]
    exact ⟨j, Nat.add_pos_left (List.countP_pos_iff.mpr ⟨d, hd, decide_eq_true hctl⟩) _⟩
  | poll env j k fi op =>
    obtain ⟨rfl, peer, hctl⟩ := hfin
    obtain ⟨hop, hdst, -⟩ := hadm
    rw [← hdst, RdmaOp.dst_of_fin hctl]
    exact ⟨j, Nat.add_pos_right _ (List.countP_pos_iff.mpr ⟨op, hop, decide_eq_true hctl⟩)⟩

end World

/-- **Source registrations outlive the reads.** In every run of a system of
endpoints with distinct addresses in which no endpoint has drawn `2 ^ 64` ids,
whatever is refused, fails or is lost: when a sender handles the `FIN` of a
rendezvous send, no endpoint has a read for its request outstanding or parked; and
none ever has after the send was completed. -/
theorem sources_outlive_reads {ι : Type} [Fintype ι] [DecidableEq ι] (cfg : ι → EpCfg)
    (domain : ι → Domain) (acts : List (WorldAct ι))
    (haddr : Function.Injective (fun j => (cfg j).self))
    (hrun : World.Runs True cfg domain acts)
    (hids : ∀ j, (World.after cfg domain acts j).idsGiven < 2 ^ 64) (S : ι) (i : UInt64) :
    (∀ a, (World.after cfg domain acts).Admits True a → a.HandlesFin S i →
        ∀ R, ¬ (World.after cfg domain acts R).ReadsFor (cfg S).self i)
      ∧ (.txDone i ∈ (World.after cfg domain acts S).trace →
        ∀ R, ¬ (World.after cfg domain acts R).ReadsFor (cfg S).self i) := by
  have hinv := World.Inv.after haddr hrun hids
  obtain ⟨htokens, hone⟩ := hinv.tokens_le haddr S i
  generalize World.after cfg domain acts = w at hinv htokens hone ⊢
  have hreceive : ∀ R, (w R).ReadsFor (cfg S).self i → 0 < (w R).receivesFor (w S).cfg.self i := by
    intro R hreads
    rw [hinv.self S]
    exact (hinv.sound R).receivesFor_pos hreads
  refine ⟨fun a hadm hfin R hreads => ?_, fun hdone R hreads => ?_⟩
  · -- the receive and the `FIN` would be two tokens of one send
    obtain ⟨Q, hout⟩ := World.finsOut_pos hadm hfin
    have hget := hreceive R hreads
    have htwo := w.tokens_ge S R Q i
    omega
  · -- the receive would be the token of a send that is not pending any more
    have hclosed : 0 < (w S).trace.countP (fun e => e.closesTx i) :=
      List.countP_pos_iff.mpr ⟨_, hdone, beq_self_eq_true i⟩
    have hget := hreceive R hreads
    have hlone := w.tokens_ge S R R i
    omega

/-- The transfer under back-pressure, until its `FIN` is under way. -/
def answeredTransfer : List (WorldAct (Fin 2)) := refusedTransfer ++ [.own 1 (.retry .roomy)]

/-- A run that meets the conditions: the source is read, the read is acknowledged, and when
the `FIN` is under way no read is left. -/
theorem acknowledged_send_outlives_reads :
    World.Runs True twoCfgs twoDomains answeredTransfer
      ∧ (World.after twoCfgs twoDomains (answeredTransfer.take 5) 1).ReadsFor 10 2
      ∧ (World.after twoCfgs twoDomains answeredTransfer).Admits True
        (.deliver .roomy 1 0 (finDgram 20 10 2))
      ∧ ∀ R, ¬ (World.after twoCfgs twoDomains answeredTransfer R).ReadsFor 10 2 := by
  have hkept : World.Runs False twoCfgs twoDomains answeredTransfer :=
    Along.append.mpr ⟨refusedTransfer_runs, admits_own _ Env.roomy_not_lossy rfl rfl trivial,
      trivial⟩
  have hrun : World.Runs True twoCfgs twoDomains answeredTransfer :=
    hkept.imp (World.Admits.mono (fun _ : False => trivial))
  have hfin : (World.after twoCfgs twoDomains answeredTransfer).Admits True
      (.deliver .roomy 1 0 (finDgram 20 10 2)) :=
    ⟨by decide +kernel, by decide +kernel, fun _ => trivial⟩
  refine ⟨hrun, .inl ⟨bigRead, by decide +kernel, rfl, rfl⟩, hfin, ?_⟩
  exact (sources_outlive_reads twoCfgs twoDomains answeredTransfer (by decide) hrun
    (by decide +kernel) 0 2).1 _ hfin ⟨rfl, 10, ctl?_finDgram 20 10 2⟩

/-! ## A receiver that answers twice -/

/-- A receive that has no room at all. -/
def postEmpty : EpAct := .postRecv .roomy [] fiAddrUnspec 0 0 2 0 false

/-- The receiver takes in a request with the id 1. -/
def requestIn : EpAct := .recv .roomy 10 (bigRequest 1).bytes

/-- The receiver after a list of actions. -/
def receiver (acts : List EpAct) : Ep := Ep.after (twoCfgs 1) (twoDomains 1) acts

/-- A message that fits is read, and the read stays outstanding while another
message is answered. -/
theorem receiver_busy :
    finDgram 20 10 1 ∈ (receiver [postBig, requestIn, postEmpty, requestIn]).wire
      ∧ ReadReq.op ⟨1, 0, [⟨4096, 65537⟩]⟩ 10 1 1
        ∈ (receiver [postBig, requestIn, postEmpty, requestIn]).inflight := by
  decide +kernel

theorem receiver_append (acts : List EpAct) (a : EpAct) :
    receiver (acts ++ [a]) = (receiver acts).act a :=
  List.foldl_append

theorem receiver_self (acts : List EpAct) : (receiver acts).cfg.self = 20 := by
  have hcfg : (receiver acts).cfg = twoCfgs 1 :=
    List.foldlRecOn (motive := fun ep => ep.cfg = twoCfgs 1) acts Ep.act rfl
      (fun ep hep a _ => (Ep.MatchStep.act ep a).cfg.trans hep)
  rw [hcfg]
  rfl

/-- The request reaches the receiver. -/
theorem deliver_request {w : World (Fin 2)} (acts : List EpAct)
    (hcfg : (w 0).cfg = senderCfg) (hwire : (w 0).wire = [bigRequest 1])
    (hrecv : w 1 = receiver acts) :
    w.Admits False (.deliver .roomy 0 1 (bigRequest 1))
      ∧ w.act (.deliver .roomy 0 1 (bigRequest 1)) 0 = { w 0 with wire := [] }
      ∧ w.act (.deliver .roomy 0 1 (bigRequest 1)) 1 = receiver (acts ++ [requestIn]) := by
  refine ⟨⟨?_, ?_, fun hlossy => Env.roomy_not_lossy hlossy⟩, ?_, ?_⟩
  · rw [hwire]
    exact List.mem_singleton_self _
  · rw [hrecv, receiver_self]
    rfl
  · show { w 0 with wire := (w 0).wire.erase (bigRequest 1) } = _
    rw [hwire, List.erase_cons_head]
  · show (w 1).act (.recv .roomy (w 0).cfg.self (bigRequest 1).bytes) = _
    rw [receiver_append, hrecv, hcfg]
    rfl

/-- The `FIN` of the receiver reaches the sender. -/
theorem admits_fin {w : World (Fin 2)} (hcfg : (w 0).cfg = senderCfg)
    (hfin : finDgram 20 10 1 ∈ (w 1).wire) :
    w.Admits False (.deliver .roomy 1 0 (finDgram 20 10 1))
      ∧ (WorldAct.deliver .roomy (1 : Fin 2) 0 (finDgram 20 10 1)).HandlesFin 0 1 := by
  refine ⟨⟨hfin, ?_, fun hlossy => Env.roomy_not_lossy hlossy⟩, rfl, 10, ctl?_finDgram 20 10 1⟩
  rw [hcfg]
  rfl

/-- **A read outlives its source when ids come round.** The receiver reads a
message; its sender draws all other ids in attempts that are refused, and sends
another message under the same id; the receiver has no room for that one and sends
a `FIN`. The sender takes it for the `FIN` of the first message, whose read is
still outstanding. -/
theorem read_outlives_source : ∃ acts, World.Runs True twoCfgs twoDomains acts
    ∧ (∃ a, (World.after twoCfgs twoDomains acts).Admits True a ∧ a.HandlesFin 0 1)
    ∧ (∃ p, rdsPendingFind (World.after twoCfgs twoDomains acts 0) 1 = some p
      ∧ p.type = .rndzvTx)
    ∧ (World.after twoCfgs twoDomains acts 1).ReadsFor 10 1 := by
  obtain ⟨n, hn⟩ : ∃ n, 1 + n + 1 = 2 ^ 64 := ⟨18446744073709551614, by norm_num⟩
  -- the first message is on its way to a receive that has room for it
  have hreach : World.Reachable False twoCfgs twoDomains _ :=
    (World.Reachable.init.act (a := .own 1 postBig)
      (admits_own _ Env.roomy_not_lossy rfl rfl trivial)).act
      (admits_bigSend _ Env.roomy_not_lossy)
  generalize hw : (World.act _ (.own 0 (bigSend .roomy)) : World (Fin 2)) = w at hreach
  have hfirst : Stalled 1 [bigRequest 1] (w 0) := by
    rw [← hw]
    exact .first rfl rfl rfl rfl rfl rfl
  obtain ⟨hadm, hsender, hreceiver⟩ := deliver_request (w := w) [postBig] hfirst.cfg
    hfirst.wire (by rw [← hw]; rfl)
  have hread : Stalled 1 [] (w.act (.deliver .roomy 0 1 (bigRequest 1)) 0) := by
    rw [hsender]
    exact ⟨hfirst.cfg, hfirst.cache, hfirst.txInflight, hfirst.opId, hfirst.pending, rfl⟩
  -- all other ids are drawn, and the next message is under way
  obtain ⟨acts, hrun, hstalled, hother⟩ := hread.run n (by omega)
  have hreach := (((hreach.act hadm).run hrun).act
    (admits_bigSend _ Env.roomy_not_lossy)).act (a := .own 1 postEmpty)
    (admits_own _ Env.roomy_not_lossy rfl rfl trivial)
  rw [hreceiver] at hother
  generalize acts.foldl World.act _ = w₁ at hstalled hother hreach
  obtain ⟨hwire, p, q, hpending, ⟨htype, hid⟩, -, -⟩ := hstalled.again hn
  generalize hw₂ : (w₁.act (.own 0 (bigSend .roomy))).act (.own 1 postEmpty) = w₂ at hreach
  have hsent : w₂ 0 = (w₁ 0).act (bigSend .roomy) := by
    rw [← hw₂]
    rfl
  have hcfg : (w₂ 0).cfg = senderCfg := by
    rw [hsent, (Ep.MatchStep.act _ _).cfg, hstalled.cfg]
  -- the receiver answers it at once
  obtain ⟨hadm, hsender, hreceiver⟩ := deliver_request (w := w₂)
    [postBig, requestIn, postEmpty] hcfg (by rw [hsent, hwire]; rfl) (by
      rw [← hw₂]
      show (w₁ 1).act postEmpty = _
      rw [hother]
      rfl)
  obtain ⟨hfin, hhandles⟩ := admits_fin (w := w₂.act (.deliver .roomy 0 1 (bigRequest 1)))
    (by rw [hsender]; exact hcfg) (by rw [hreceiver]; exact receiver_busy.1)
  obtain ⟨acts, hrun, hafter⟩ := (hreach.act hadm).mono (fun _ : False => trivial)
  refine ⟨acts, hrun, ?_⟩
  rw [hafter]
  refine ⟨⟨_, World.Admits.mono (fun _ : False => trivial) _ _ hfin, hhandles⟩, ⟨p, ?_, htype⟩, ?_⟩
  · rw [hsender, rdsPendingFind]
    show (w₂ 0).pending.find? _ = some p
    rw [hsent, hpending]
    exact List.find?_cons_of_pos (beq_iff_eq.mpr hid)
  · rw [hreceiver]
    exact .inl ⟨_, receiver_busy.2, rfl, rfl⟩
