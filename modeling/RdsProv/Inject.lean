import RdsProv.SendEffects
import RdsProv.Transfer
import RdsProv.Matching
import RdsProv.Params

/-!
# Injected transfers

A caller that injects has its buffer back when the call returns, whatever the network
still has to do. `fi_inject` and `fi_inject_write` promise it by their name,
`fi_sendmsg`, `fi_tsendmsg` and `fi_writemsg` when they are called with `FI_INJECT`,
and all of them for up to `inject_size` bytes, which the provider advertises as 8192.

The provider keeps the promise where it copies: into a datagram, into a slot of a ring,
into a bounce buffer. It breaks it where it refers: a rendezvous send registers the
source and names it in the segments of its request, and a one-sided operation has the
source in its local vector. Which of the two a call does is decided by thresholds that
have nothing to do with the advertised size, and never by `FI_INJECT`
(`inject_semantics_iff`).
-/

/-! ## The calls -/

/-- The calls that promise their caller the buffer. The flags of the last two come on
top of `FI_INJECT`. -/
inductive InjectCall where
  | inject (buf len : ℕ) (destAddr tag : UInt64) (tagged : Bool)
  | injectWrite (buf len : ℕ) (destAddr addr key : UInt64)
  | sendmsg (iov : List Iovec) (destAddr tag data : UInt64) (context : ℕ) (flags : UInt64)
      (tagged : Bool)
  | writemsg (iov : List Iovec) (destAddr : UInt64) (rmaIov : List (UInt64 × UInt64))
      (context : ℕ) (flags : UInt64)

namespace InjectCall

/-- The length of the transfer. -/
def total : InjectCall → ℕ
  | .inject _ len .. | .injectWrite _ len .. => len
  | .sendmsg iov .. | .writemsg iov .. => ofiTotalIovLen iov

/-- `fi_inject`, `fi_tinject` or `fi_inject_write`. -/
def isInject : InjectCall → Bool
  | .inject .. | .injectWrite .. => true
  | .sendmsg .. | .writemsg .. => false

/-- The call is made. -/
def run (env : Env) (ep : Ep) : InjectCall → Ep × Ret
  | .inject buf len destAddr tag true => rdsTinject env ep buf len destAddr tag
  | .inject buf len destAddr _ false => rdsInject env ep buf len destAddr
  | .injectWrite buf len destAddr addr key => rdsInjectWrite env ep buf len destAddr addr key
  | .sendmsg iov destAddr tag data context flags true =>
    rdsTsendmsg env ep iov destAddr tag data context (flags ||| fiInject)
  | .sendmsg iov destAddr _ data context flags false =>
    rdsSendmsg env ep iov destAddr data context (flags ||| fiInject)
  | .writemsg iov destAddr rmaIov context flags =>
    rdsWritemsg env ep iov destAddr rmaIov context (flags ||| fiInject)

/-- **The call copies**, or does nothing: it is within the threshold of its path. A
one-sided write is within none. -/
def Copies (cfg : EpCfg) : InjectCall → Prop
  | .inject _ len .. | .injectWrite _ len .. => len ≤ cfg.eagerSize
  | .sendmsg iov destAddr .. => ofiTotalIovLen iov ≤ cfg.eagerLimit
      ∨ rdsAvAddr cfg destAddr = none ∨ rdsIovLimit < iov.length
  | .writemsg iov destAddr rmaIov .. => ofiTotalIovLen iov = 0
      ∨ rdsAvAddr cfg destAddr = none ∨ rmaIov.length ≠ 1

end InjectCall

/-- **Nothing was left that refers to the caller's memory**: no operation that holds a
registration, no request, and no RDMA operation whose local vector is not a copy. -/
structure Ep.Detached (ep ep' : Ep) : Prop where
  pending : ∃ l, ep'.pending = ep.pending ++ l ∧ ∀ p ∈ l, p.mrs = []
  inflight : ∃ l, ep'.inflight = ep.inflight ++ l ∧ ∀ op ∈ l, ∀ v, op.loc ≠ .iov v
  wire : ∃ l, ep'.wire = ep.wire ++ l ∧ ∀ d ∈ l, d.hdr.op ≠ rdsOpRts
  writes : ∃ l, ep'.writes = ep.writes ++ l
    ∧ ∀ w ∈ l, ∃ idx slot, w.loc = .stage idx slot ∧ slot.op ≠ rdsOpRts

/-- **A call keeps its promise**: an inject call is not refused for its size, unless the
socket itself says so, and a call that returns `0` has left nothing that refers to the
caller's memory. -/
def InjectCall.Injects (env : Env) (ep : Ep) (c : InjectCall) : Prop :=
  (c.isInject = true → (c.run env ep).2 = .err fiEmsgsize →
      ∃ t op, env.sendmsg t op = some fiEmsgsize)
    ∧ ((c.run env ep).2 = .ok → ep.Detached (c.run env ep).1)

/-! ## What copies -/

namespace Ep.Detached

variable {inp : RingInput} {ep ep' : Ep}

/-- A message that was handed over as a datagram or a slot. -/
theorem ships {destAddr : UInt64} {op : UInt8} {d : Dgram} {payload : List UInt8}
    (h : ep.Ships inp ep' destAddr op d payload) (hop : op ≠ rdsOpRts) (hd : d.hdr.op ≠ rdsOpRts) :
    ep.Detached ep' := by
  have hctrl : ∀ l : List Dgram, (∀ d ∈ l, d.hdr.op = rdsOpRingReq ∨ d.hdr.op = rdsOpRingAck) →
      ∀ d ∈ l, d.hdr.op ≠ rdsOpRts := by
    intro l hl d hd hrts
    obtain h | h := hl d hd
    · rw [hrts] at h
      cases h
    · rw [hrts] at h
      cases h
  obtain ⟨e, hquiet, rfl⟩ | ⟨-, e, p, flags, tag, data, hquiet, -, -, -, -, -, heq, -⟩ := h
  · obtain ⟨l, hl, hops⟩ := hquiet.wire
    have hsame := hquiet.eq
    refine ⟨⟨[], ?_, by simp⟩, ⟨[], ?_, by simp⟩, ⟨l ++ [d], ?_, ?_⟩, ⟨[], ?_, by simp⟩⟩
    · rw [hsame]
      exact (List.append_nil _).symm
    · rw [hsame]
      exact (List.append_nil _).symm
    · show e.wire ++ [d] = _
      rw [hl, List.append_assoc]
    · intro d' hd'
      obtain hd' | hd' := List.mem_append.mp hd'
      · exact hctrl l hops d' hd'
      · rw [List.mem_singleton.mp hd']
        exact hd
    · rw [hsame]
      exact (List.append_nil _).symm
  · obtain ⟨l, hl, hops⟩ := hquiet.wire
    have hsame := hquiet.eq
    refine ⟨⟨[], ?_, by simp⟩, ⟨[], ?_, by simp⟩, ⟨l, ?_, hctrl l hops⟩,
      ⟨[p.slotWrite (p.fillSlot op flags tag data payload)], ?_, ?_⟩⟩
    · rw [heq, hsame]
      exact (List.append_nil _).symm
    · rw [heq, hsame]
      exact (List.append_nil _).symm
    · rw [heq]
      exact hl
    · rw [heq, hsame]
    · intro w hw
      rw [List.mem_singleton.mp hw]
      exact ⟨_, _, rfl, hop⟩

theorem congr {e : Ep} (h : ep.Detached e) (heq : ep' = { e with txCq := ep'.txCq }) :
    ep.Detached ep' := by
  rw [heq]
  exact ⟨h.pending, h.inflight, h.wire, h.writes⟩

/-- A request was handed over. -/
theorem not_requests {ep₀ : Ep} {destAddr : UInt64} {hdr : Hdr} {segs : List Seg} {p : Pending}
    {src dest : SockAddr} (hrts : hdr.op = rdsOpRts) (hwire : ep₀.wire = ep.wire)
    (hwrites : ep₀.writes = ep.writes)
    (h : ep₀.Ships inp ep' destAddr rdsOpRts ⟨src, dest, hdr.encode ++ encodeSegs segs⟩
      (hdr.encode ++ encodeSegs segs)) : ¬ ep.Detached (ep'.withTx p) := by
  intro hdet
  obtain ⟨e, hquiet, rfl⟩ | ⟨-, e, q, flags, tag, data, hquiet, -, -, -, -, -, heq, -⟩ := h
  · obtain ⟨l, hl, hop⟩ := hdet.wire
    obtain ⟨l', hl', -⟩ := hquiet.wire
    have hwhole : e.wire ++ [⟨src, dest, hdr.encode ++ encodeSegs segs⟩] = ep.wire ++ l := hl
    rw [hl', hwire, List.append_assoc, List.append_cancel_left_eq] at hwhole
    refine hop ⟨src, dest, hdr.encode ++ encodeSegs segs⟩ ?_ ?_
    · rw [← hwhole]
      exact List.mem_append_right _ (List.mem_singleton_self _)
    · rw [Dgram.hdr, Hdr.decode_encode]
      exact hrts
  · obtain ⟨l, hl, hop⟩ := hdet.writes
    have hwhole : ep'.writes = ep.writes ++ l := hl
    have hsame := hquiet.eq
    rw [heq, hsame] at hwhole
    dsimp only at hwhole
    rw [hwrites, List.append_cancel_left_eq] at hwhole
    obtain ⟨idx, slot, hloc, hne⟩ := hop _ (hwhole ▸ List.mem_singleton_self _)
    cases hloc
    exact hne rfl

end Ep.Detached

/-! ## What is refused for its size -/

/-- The socket says that something is too long. -/
def Env.SaysTooLong (env : Env) : Prop := ∃ t op, env.sendmsg t op = some fiEmsgsize

/-- What it says is passed on. -/
theorem Env.saysTooLong_of_sockRet {env : Env} {t : ℕ} {op : SockOp} {e err : ℕ+}
    (hsend : env.sendmsg t op = some e) (hret : sockRet e = .err err)
    (herr : Ret.err err = .err fiEmsgsize) : env.SaysTooLong := by
  rw [herr] at hret
  unfold sockRet at hret
  split at hret
  · cases hret
  · exact ⟨t, op, hsend.trans (congrArg some (Ret.err.inj hret))⟩

theorem rdsPostRdma_tooLong {env : Env} {ep : Ep} {op : RdmaOp}
    (h : (rdsPostRdma env ep op).2 = .err fiEmsgsize) : env.SaysTooLong := by
  obtain ⟨-, heq⟩ | ⟨e, e', hsend, hret, heq⟩ | ⟨-, -, heq⟩ | ⟨-, -, heq⟩ :=
    rdsPostRdma_cases env ep op
  · rw [heq] at h
    cases h
  · rw [heq] at h
    exact env.saysTooLong_of_sockRet hsend hret h
  · rw [heq] at h
    cases h
  · rw [heq] at h
    cases h

theorem rdsRingSend_tooLong {env : Env} {ep : Ep} {payload : List UInt8} {dest tag data : UInt64}
    {context : ℕ} {flags : UInt64} {tagged genComp : Bool} {op : UInt8}
    (h : (rdsRingSend env ep payload dest tag data context flags tagged genComp op).2
      = .err fiEmsgsize) : env.SaysTooLong := by
  revert h
  -- only the write of a slot can be refused as too long
  exact rdsRingSend_elim (fun _ => nofun) (fun _ _ => nofun) (fun e p _ _ _ _ => rdsRingPlace_elim
      (fun _ _ _ => nofun)
      (fun q slot e err _ _ _ hsend hret h => env.saysTooLong_of_sockRet hsend hret h)
      (fun _ _ _ _ _ => nofun))
    (fun _ _ _ _ => nofun) (fun e p _ _ _ => rdsRingConnect_elim (fun _ _ _ _ _ => nofun)
      (fun _ _ _ _ _ _ => nofun) (fun _ => nofun) (fun _ _ => nofun))

theorem rdsSendEager_tooLong {env : Env} {ep : Ep} {iov : List Iovec} {dest : SockAddr}
    {tag data : UInt64} {context : ℕ} {flags : UInt64} {tagged genComp : Bool}
    (h : (rdsSendEager env ep iov dest tag data context flags tagged genComp).2
      = .err fiEmsgsize) : env.SaysTooLong := by
  revert h
  exact rdsSendEager_elim (fun _ _ _ hsend hret h => env.saysTooLong_of_sockRet hsend hret h) nofun

/-! ## Calls that keep their promise -/

namespace InjectCall

/-- An eager message is no request. -/
theorem op_eagerHdr_ne (tagged : Bool) (flags tag data : UInt64) (total : ℕ) :
    (eagerHdr tagged flags tag data total).op ≠ rdsOpRts := by
  show rdsOpEager ≠ rdsOpRts
  decide

/-- `fi_inject` and `fi_tinject` copy what they accept. -/
theorem genericInject_keeps (env : Env) {ep : Ep} {len : ℕ} (hlen : len ≤ ep.cfg.eagerSize)
    (buf : ℕ) (destAddr tag : UInt64) (tagged : Bool) {r : Ep × Ret}
    (hr : rdsGenericInject env ep buf len destAddr tag tagged = r) :
    (r.2 = .err fiEmsgsize → env.SaysTooLong) ∧ (r.2 = .ok → ep.Detached r.1) := by
  constructor
  · subst hr
    exact rdsGenericInject_elim (fun hlong => absurd hlen (not_le.mpr hlong)) nofun
      (fun dest e ret _ _ hring _ hret =>
        rdsRingSend_tooLong ((congrArg Prod.snd hring).trans hret))
      (fun dest e _ _ _ hret => rdsSendEager_tooLong hret)
  · intro hret
    obtain ⟨hfail, -⟩ | ⟨-, -, dest, e, -, hships, heq⟩ := rdsGenericInject_effects env ep buf len
      destAddr tag tagged (fun _ => RingInput.any_expires destAddr) hr
    · exact absurd hret hfail
    · refine (Ep.Detached.ships hships (by decide) ?_).congr heq
      rw [Dgram.hdr, Hdr.decode_encode]
      exact op_eagerHdr_ne _ _ _ _ _

/-- `fi_inject_write` copies into a bounce buffer. -/
theorem injectWrite_keeps (env : Env) {ep : Ep} {len : ℕ} (hlen : len ≤ ep.cfg.eagerSize)
    (buf : ℕ) (destAddr addr key : UInt64) :
    ((rdsInjectWrite env ep buf len destAddr addr key).2 = .err fiEmsgsize → env.SaysTooLong)
      ∧ ((rdsInjectWrite env ep buf len destAddr addr key).2 = .ok →
        ep.Detached (rdsInjectWrite env ep buf len destAddr addr key).1) := by
  unfold rdsInjectWrite Ep.malloc
  rw [if_neg (not_lt.mpr hlen)]
  cases env.alloc ep.tick with
  | false => exact ⟨nofun, nofun⟩
  | true =>
    dsimp only
    split
    · exact ⟨nofun, nofun⟩
    rename_i dest _
    generalize he : ({ ep with tick := ep.tick + 1 } : Ep) = e
    obtain ⟨-, h⟩ | h := rdsPendingAlloc_cases env e .rma 0 (fiRma ||| fiWrite)
    · rw [h]
      exact ⟨nofun, nofun⟩
    rw [h]
    dsimp only
    split
    · rename_i heq
      refine ⟨fun hret => ?_, nofun⟩
      rw [← congrArg Prod.snd heq] at hret
      exact rdsPostRdma_tooLong hret
    · rename_i e' heq
      refine ⟨nofun, fun _ => ?_⟩
      obtain ⟨-, h⟩ | ⟨_, _, -, -, h⟩ | ⟨-, -, h⟩ | ⟨-, hn, -⟩ := rdsPostRdma_cases env
        { e with tick := e.tick + 1, opId := succId e.opId, idsGiven := e.idsGiven + 1 }
        (rmaOp dest key addr (.bounce (readMem env.mem buf len)) true (succId e.opId))
      · cases heq.symm.trans h
      · cases heq.symm.trans h
      · cases heq.symm.trans h
        rw [← he]
        exact ⟨⟨[_], rfl, by simp [Pending.blank]⟩, ⟨[_], rfl, by simp [rmaOp]⟩,
          ⟨[], (List.append_nil _).symm, by simp⟩, ⟨[], (List.append_nil _).symm, by simp⟩⟩
      · cases hn

/-- A send within the threshold copies, and one that cannot be addressed fails. -/
theorem genericSend_keeps (env : Env) {ep : Ep} {iov : List Iovec} {destAddr : UInt64}
    (hcopies : ofiTotalIovLen iov ≤ ep.cfg.eagerLimit ∨ rdsAvAddr ep.cfg destAddr = none
      ∨ rdsIovLimit < iov.length) (tag data : UInt64) (context : ℕ) (flags : UInt64)
    (tagged : Bool) {r : Ep × Ret}
    (hr : rdsGenericSend env ep iov destAddr tag data context flags tagged = r)
    (hret : r.2 = .ok) : ep.Detached r.1 := by
  obtain ⟨hfail, -⟩ | ⟨-, -, dest, e, -, hships, heq⟩
      | ⟨-, hbig, dest, -, -, -, -, -, hdest, -⟩ := rdsGenericSend_effects env ep iov destAddr tag
    data context flags tagged (fun _ => RingInput.any_expires destAddr) hr
  · exact absurd hret hfail
  · refine (Ep.Detached.ships hships (by decide) ?_).congr heq
    rw [Dgram.hdr, Hdr.decode_encode]
    exact op_eagerHdr_ne _ _ _ _ _
  · obtain hle | hnone | hlong := hcopies
    · exact absurd hle (not_le.mpr hbig)
    · rw [hnone] at hdest
      cases hdest
    · unfold rdsGenericSend at hr
      rw [if_pos hlong] at hr
      rw [← hr] at hret
      cases hret

/-- A one-sided write that issues nothing leaves nothing. -/
theorem writemsg_keeps (env : Env) {ep : Ep} {iov : List Iovec} {destAddr : UInt64}
    {rmaIov : List (UInt64 × UInt64)}
    (hcopies : ofiTotalIovLen iov = 0 ∨ rdsAvAddr ep.cfg destAddr = none ∨ rmaIov.length ≠ 1)
    (context : ℕ) (flags : UInt64)
    (hret : (rdsWritemsg env ep iov destAddr rmaIov context flags).2 = .ok) :
    ep.Detached (rdsWritemsg env ep iov destAddr rmaIov context flags).1 := by
  unfold rdsWritemsg at hret ⊢
  split at hret
  · rename_i addr key
    generalize hr : rdsRmaCommon env ep iov destAddr addr key true context flags = r at hret
    by_cases hmax : rdsMaxMsgSize < ofiTotalIovLen iov
    · unfold rdsRmaCommon at hr
      rw [if_pos hmax] at hr
      rw [← hr] at hret
      cases hret
    obtain ⟨-, t, e, rfl⟩ | ⟨dest, issued, rest, t, hdest, -, hplan, -, hissued⟩ :=
      rdsRmaCommon_cases env ep (not_lt.mp hmax) destAddr addr key true context flags hr
    · cases hret
    obtain ⟨-, hep, -⟩ | ⟨error, hne, -, -⟩ := hissued
    · rw [hep]
      exact ⟨⟨[], (List.append_nil _).symm, by simp⟩, ⟨[], rfl, by simp⟩,
        ⟨[], (List.append_nil _).symm, by simp⟩, ⟨[], (List.append_nil _).symm, by simp⟩⟩
    · obtain hzero | hnone | hone := hcopies
      · rw [hzero] at hplan
        exact absurd (List.append_eq_nil_iff.mp hplan.symm).1 hne
      · rw [hnone] at hdest
        cases hdest
      · exact absurd rfl hone
  · cases hret

/-- **What copies keeps its promise**, in every state. -/
theorem injects_of_copies (env : Env) (ep : Ep) {c : InjectCall} (h : c.Copies ep.cfg) :
    c.Injects env ep := by
  cases c with
  | inject buf len destAddr tag tagged =>
    cases tagged with
    | false =>
      obtain ⟨hlong, hdet⟩ := genericInject_keeps env h buf destAddr 0 false rfl
      exact ⟨fun _ => hlong, hdet⟩
    | true =>
      obtain ⟨hlong, hdet⟩ := genericInject_keeps env h buf destAddr tag true rfl
      exact ⟨fun _ => hlong, hdet⟩
  | injectWrite buf len destAddr addr key =>
    obtain ⟨hlong, hdet⟩ := injectWrite_keeps env h buf destAddr addr key
    exact ⟨fun _ => hlong, hdet⟩
  | sendmsg iov destAddr tag data context flags tagged =>
    refine ⟨nofun, fun hret => ?_⟩
    cases tagged with
    | false => exact genericSend_keeps env h 0 data context _ false rfl hret
    | true => exact genericSend_keeps env h tag data context _ true rfl hret
  | writemsg iov destAddr rmaIov context flags =>
    exact ⟨nofun, writemsg_keeps env h context _⟩

end InjectCall

/-! ## Calls that break it -/

/-- Registration goes well where the kernel and the allocator answer. -/
theorem rdsRegChunks_ok {env : Env} (hreg : ∀ calls r, env.getMr calls r = .ok 1) (sock : ℕ)
    {rs : List Region} (hlen : ∀ r ∈ rs, r.len ≤ rdsKernelSegMax) {dom : Domain}
    (halloc : ∀ t, dom.tick ≤ t → env.alloc t = true) :
    (rdsRegChunks env sock false rs dom).2.2.2 = none := by
  induction rs generalizing dom with
  | nil => rfl
  | cons r rs ih =>
    have hr : r.len ≤ rdsKernelSegMax := hlen r List.mem_cons_self
    have hkernel : rdsKernelReg env dom sock r
        = ({ dom with kcalls := dom.kcalls ++ [.getMr sock r 1] }, .ok 1) := by
      unfold rdsKernelReg
      rw [if_neg (not_lt.mpr hr), hreg]
    have hok : env.alloc dom.tick = true := halloc dom.tick le_rfl
    rw [rdsRegChunks, rdsRegChunk, if_neg (by decide), rdsRegInternal, hkernel]
    dsimp only
    rw [if_pos hok]
    dsimp only
    refine ih (fun r' hr' => hlen r' (List.mem_cons_of_mem _ hr')) (fun t ht => ?_)
    exact halloc t ((Nat.le_succ _).trans ht)

namespace InjectCall

/-- A network that takes everything, and an allocator that has no room for a new ring. -/
def ringless : Env := { Env.calm (fun _ _ => .ok 1) with alloc := fun t => t ≠ 3 }

/-- A domain without a cache, in use for a while. -/
def usedDomain : Domain := { Domain.opened false (some 3) 0 0 with tick := 4 }

/-- No ring can be set up, so that the request goes by datagram. -/
theorem rdsRingSend_ringless {ep : Ep} (hpeers : ep.peers = []) (htick : ep.tick = 3)
    (payload : List UInt8) (dest tag data : UInt64) (context : ℕ) (flags : UInt64)
    (tagged genComp : Bool) (op : UInt8) :
    (rdsRingSend ringless ep payload dest tag data context flags tagged genComp op).2
      = .err fiEnosys := by
  have hget : (rdsPeerGet ringless ep dest).2 = none := by
    unfold rdsPeerGet rdsPeerFind rdsPeerCreate
    rw [hpeers, List.find?_nil]
    dsimp only
    split
    · rfl
    split
    · rfl
    · have hno : ringless.alloc ep.tick = false := by
        rw [htick]
        rfl
      rw [hno]
      rfl
  unfold rdsRingSend
  split
  · rfl
  split
  · rfl
  split
  · rfl
  · rename_i heq
    rw [heq] at hget
    cases hget

/-- The ring says no, and the socket takes the request. -/
theorem rdsSendRts_accepted {ep : Ep} (hpeers : ep.peers = []) (htick : ep.tick = 3)
    (p : Pending) (bytes : List UInt8) (dest : SockAddr) (destAddr : UInt64) :
    (rdsSendRts ringless ep p bytes dest destAddr).2 = .ok := by
  have hring : (if ep.cfg.eagerRdma then
        rdsRingSend ringless ep bytes destAddr 0 0 0 0 false false rdsOpRts
      else (ep, .err fiEnosys)).2 = .err fiEnosys := by
    split
    · exact rdsRingSend_ringless hpeers htick bytes destAddr 0 0 0 0 false false rdsOpRts
    · rfl
  unfold rdsSendRts
  generalize (if ep.cfg.eagerRdma then
      rdsRingSend ringless ep bytes destAddr 0 0 0 0 false false rdsOpRts
    else (ep, .err fiEnosys)) = ring at hring
  obtain ⟨e, ret⟩ := ring
  cases hring
  dsimp only
  rw [if_pos rfl]
  rfl

/-- A rendezvous send of a fresh endpoint is accepted. -/
theorem rdsSendRndzv_accepted {ep : Ep} (hpeers : ep.peers = []) (htick : ep.tick = 0)
    (hcache : ep.domain.cacheEnabled = false) (hdom : 4 ≤ ep.domain.tick)
    (hroom : ep.rndzvTxInflight.toNat < ep.cfg.rndzvMaxInflight) {iov : List Iovec}
    (hcount : iov.length ≤ rdsIovLimit) (hlen : ∀ v ∈ iov, v.len ≤ rdsKernelSegMax)
    (dest : SockAddr) (tag data : UInt64) (context : ℕ) (flags : UInt64) (tagged genComp : Bool)
    (destAddr : UInt64) :
    (rdsSendRndzv ringless ep iov dest tag data context flags tagged genComp destAddr).2 = .ok := by
  have hnseg : ¬ rdsMaxEagerSize < rdsNseg iov * rdsSegSize := by
    have hle := Nat.mul_le_mul_right rdsSegSize ((rdsNseg_le_length hlen).trans hcount)
    exact not_lt.mpr (hle.trans (by decide))
  have halloc : ∀ t, ep.domain.tick ≤ t → ringless.alloc t = true := by
    intro t ht
    exact decide_eq_true (by omega)
  have hreg := rdsRegChunks_ok (fun _ _ => rfl) ep.cfg.sock
    (fun r (hr : r ∈ chunksOf iov) => len_le_of_mem_chunksOf hr) halloc
  unfold rdsSendRndzv Ep.malloc
  rw [if_neg (not_le.mpr hroom)]
  dsimp only
  rw [if_neg hnseg, htick, hcache]
  generalize rdsRegChunks ringless ep.cfg.sock false (chunksOf iov) ep.domain = s at hreg
  obtain ⟨dom, segs, mrs, err⟩ := s
  cases hreg
  have hallocs : (!(ringless.alloc 0 && ringless.alloc (0 + 1))) = false := by decide
  rw [hallocs, if_neg (by decide)]
  dsimp only
  unfold rdsPendingAlloc Ep.malloc
  dsimp only
  have hpending : ringless.alloc (0 + 1 + 1) = true := by decide
  rw [hpending]
  refine rdsSendRts_accepted ?_ ?_ _ _ _ _
  · exact hpeers
  · rfl

/-- **A send above the threshold is accepted**, as the first of an endpoint. -/
theorem genericSend_accepted {cfg : EpCfg} {iov : List Iovec} {destAddr : UInt64}
    {dest : SockAddr} (hdest : rdsAvAddr cfg destAddr = some dest)
    (hcount : iov.length ≤ rdsIovLimit) (hsize : ofiTotalIovLen iov ≤ rdsDefInjectSize)
    (hbig : cfg.eagerLimit < ofiTotalIovLen iov) (hroom : 0 < cfg.rndzvMaxInflight)
    (tag data : UInt64) (context : ℕ) (flags : UInt64) (tagged : Bool) :
    (rdsGenericSend ringless (Ep.init cfg usedDomain) iov destAddr tag data context flags
      tagged).2 = .ok := by
  obtain ⟨ep, hep⟩ : ∃ ep, Ep.init cfg usedDomain = ep := ⟨_, rfl⟩
  have hcfg : ep.cfg = cfg := by rw [← hep]; rfl
  have hmax : ¬ rdsMaxMsgSize < ofiTotalIovLen iov := by
    have : rdsDefInjectSize < rdsMaxMsgSize := by decide
    omega
  have hring : ¬ (ep.cfg.eagerRdma = true ∧ ofiTotalIovLen iov ≤ ep.cfg.geom.payload) := by
    rintro ⟨hon, hle⟩
    rw [EpCfg.eagerLimit, ← hcfg, if_pos hon] at hbig
    exact absurd hle (not_le.mpr hbig)
  have hlen : ∀ v ∈ iov, v.len ≤ rdsKernelSegMax := by
    intro v hv
    have hle := len_le_ofiTotalIovLen hv
    have : rdsDefInjectSize < rdsKernelSegMax := by decide
    omega
  have hlimit : ¬ ofiTotalIovLen iov
      ≤ (if ep.cfg.eagerRdma then ep.cfg.geom.payload else ep.cfg.eagerSize) := by
    rw [hcfg]
    exact not_le.mpr hbig
  rw [hep]
  unfold rdsGenericSend
  rw [if_neg (not_lt.mpr hcount)]
  dsimp only
  rw [if_neg hmax, hcfg, hdest, ← hcfg]
  dsimp only
  rw [if_neg hring]
  dsimp only
  rw [if_neg (by simp), if_neg hlimit]
  have hroom : ep.rndzvTxInflight.toNat < ep.cfg.rndzvMaxInflight := by
    rw [← hep]
    exact hroom
  refine rdsSendRndzv_accepted ?_ ?_ ?_ ?_ hroom hcount hlen _ _ _ _ _ _ _ _
  all_goals rw [← hep]
  all_goals rfl

/-- An inject call above `eager_size` is refused at once. -/
theorem genericInject_refused {env : Env} {ep : Ep} {len : ℕ} (hlen : ep.cfg.eagerSize < len)
    (buf : ℕ) (destAddr tag : UInt64) (tagged : Bool) :
    (rdsGenericInject env ep buf len destAddr tag tagged).2 = .err fiEmsgsize := by
  unfold rdsGenericInject
  rw [if_pos hlen]

theorem injectWrite_refused {env : Env} {ep : Ep} {len : ℕ} (hlen : ep.cfg.eagerSize < len)
    (buf : ℕ) (destAddr addr key : UInt64) :
    (rdsInjectWrite env ep buf len destAddr addr key).2 = .err fiEmsgsize := by
  unfold rdsInjectWrite
  rw [if_pos hlen]

/-- A send above the threshold refers to the caller's memory. -/
theorem genericSend_refers {cfg : EpCfg} {iov : List Iovec} {destAddr : UInt64}
    (hdest : rdsAvAddr cfg destAddr ≠ none) (hcount : iov.length ≤ rdsIovLimit)
    (hsize : ofiTotalIovLen iov ≤ rdsDefInjectSize) (hbig : cfg.eagerLimit < ofiTotalIovLen iov)
    (hroom : 0 < cfg.rndzvMaxInflight) (tag data : UInt64) (context : ℕ) (flags : UInt64)
    (tagged : Bool) :
    let r := rdsGenericSend ringless (Ep.init cfg usedDomain) iov destAddr tag data context flags
      tagged
    r.2 = .ok ∧ ¬ (Ep.init cfg usedDomain).Detached r.1 := by
  obtain ⟨dest, hdest⟩ := Option.ne_none_iff_exists'.mp hdest
  have hok := genericSend_accepted hdest hcount hsize hbig hroom tag data context flags tagged
  refine ⟨hok, ?_⟩
  obtain ⟨hfail, -⟩ | ⟨-, hsmall, -⟩
      | ⟨-, -, dest', e₁, e₂, genComp, segs, mrs, -, -, -, hreg, hships, heq⟩ :=
    rdsGenericSend_effects ringless (Ep.init cfg usedDomain) iov destAddr tag data context flags
      tagged (fun _ => RingInput.any_expires destAddr) rfl
  · exact absurd hok hfail
  · exact absurd hsmall (not_le.mpr hbig)
  · rw [heq]
    refine Ep.Detached.not_requests rfl ?_ ?_ hships
    · rw [hreg.eq]
    · rw [hreg.eq]

/-- A one-sided write refers to the caller's memory. -/
theorem writemsg_refers {cfg : EpCfg} {iov : List Iovec} {destAddr : UInt64}
    (hdest : rdsAvAddr cfg destAddr ≠ none) (hsize : ofiTotalIovLen iov ≤ rdsDefInjectSize)
    (hpos : ofiTotalIovLen iov ≠ 0) {rmaIov : List (UInt64 × UInt64)} (hone : rmaIov.length = 1)
    (context : ℕ) (flags : UInt64) :
    let r := rdsWritemsg ringless (Ep.init cfg usedDomain) iov destAddr rmaIov context flags
    r.2 = .ok ∧ ¬ (Ep.init cfg usedDomain).Detached r.1 := by
  obtain ⟨⟨addr, key⟩, rfl⟩ := List.length_eq_one_iff.mp hone
  have hmax : ofiTotalIovLen iov ≤ rdsMaxMsgSize := hsize.trans (by decide)
  show (rdsRmaCommon ringless (Ep.init cfg usedDomain) iov destAddr addr key true context flags).2
    = .ok ∧ ¬ (Ep.init cfg usedDomain).Detached (rdsRmaCommon ringless (Ep.init cfg usedDomain) iov
      destAddr addr key true context flags).1
  generalize hr : rdsRmaCommon ringless (Ep.init cfg usedDomain) iov destAddr addr key true context
    flags = r
  obtain ⟨hfail, -⟩ | ⟨dest, issued, rest, t, -, -, hplan, hall, hissued⟩ :=
    rdsRmaCommon_cases ringless (Ep.init cfg usedDomain) hmax destAddr addr key true context flags
      hr
  · obtain hnone | hno := hfail
    · exact absurd hnone hdest
    · have hyes : ringless.alloc (Ep.init cfg usedDomain).tick = true := rfl
      rw [hyes] at hno
      cases hno
  rw [hall (fun _ _ => rfl), List.append_nil] at hplan
  have hne : issued ≠ [] := by
    rintro rfl
    have htiles := tiles_rmaPlan iov (ofiTotalIovLen iov) 0 (Nat.zero_le _) (Nat.le_add_left _ _)
    rw [hplan] at htiles
    exact hpos htiles.symm
  obtain ⟨hnil, -⟩ | ⟨error, -, -, rfl⟩ := hissued
  · exact absurd hnil hne
  refine ⟨rfl, fun hdet => ?_⟩
  obtain ⟨l, hl, hloc⟩ := hdet.inflight
  obtain ⟨c, hc⟩ := List.exists_mem_of_ne_nil issued hne
  have hmem : c.op dest key addr true (succId (Ep.init cfg usedDomain).opId) ∈ l := by
    have hwhole : issued.map (fun c => c.op dest key addr true
        (succId (Ep.init cfg usedDomain).opId)) = l := hl
    rw [← hwhole]
    exact List.mem_map_of_mem hc
  exact hloc _ hmem c.liov rfl

end InjectCall

/-- **An injected transfer keeps its promise exactly if it is within the threshold of its
path.** For every setting the provider accepts and every transfer of at most the
advertised inject size: the call is never refused for its size and never leaves anything
that refers to the caller's memory, in whatever state of whatever run it is made, if and
only if it is an inject call of at most `eager_size` bytes, a send of at most what is sent
eagerly, or a call that does nothing. -/
theorem inject_semantics_iff (p : Params) (cfg : EpCfg) (hcfg : (rdsIni p).Configures cfg)
    (c : InjectCall) (hsize : c.total ≤ rdsDefInjectSize) :
    (∀ (env : Env) (domain : Domain) (acts : List EpAct), Ep.Runs cfg domain acts →
        c.Injects env (Ep.after cfg domain acts))
      ↔ c.Copies cfg := by
  have hroom : 0 < cfg.rndzvMaxInflight := by
    rw [hcfg.rndzvMaxInflight]
    exact rdsIni_rndzvMaxInflight_pos p
  constructor
  · intro h
    have hinit := h InjectCall.ringless InjectCall.usedDomain [] trivial
    -- what does not copy breaks its promise in the first call of an endpoint
    cases c with
    | inject buf len destAddr tag tagged =>
      by_contra hlong
      have hret : (InjectCall.run InjectCall.ringless (Ep.init cfg InjectCall.usedDomain)
          (.inject buf len destAddr tag tagged)).2 = .err fiEmsgsize := by
        cases tagged <;> exact InjectCall.genericInject_refused (not_le.mp hlong) ..
      obtain ⟨t, op, hsays⟩ := hinit.1 rfl hret
      cases hsays
    | injectWrite buf len destAddr addr key =>
      by_contra hlong
      have hret : (InjectCall.run InjectCall.ringless (Ep.init cfg InjectCall.usedDomain)
          (.injectWrite buf len destAddr addr key)).2 = .err fiEmsgsize :=
        InjectCall.injectWrite_refused (not_le.mp hlong) ..
      obtain ⟨t, op, hsays⟩ := hinit.1 rfl hret
      cases hsays
    | sendmsg iov destAddr tag data context flags tagged =>
      by_contra hno
      simp only [InjectCall.Copies, not_or, not_le, not_lt] at hno
      obtain ⟨hbig, hdest, hcount⟩ := hno
      cases tagged with
      | false =>
        obtain ⟨hok, hrefers⟩ := InjectCall.genericSend_refers hdest hcount hsize hbig hroom 0 data
          context (flags ||| fiInject) false
        exact hrefers (hinit.2 hok)
      | true =>
        obtain ⟨hok, hrefers⟩ := InjectCall.genericSend_refers hdest hcount hsize hbig hroom tag
          data context (flags ||| fiInject) true
        exact hrefers (hinit.2 hok)
    | writemsg iov destAddr rmaIov context flags =>
      by_contra hno
      simp only [InjectCall.Copies, not_or, not_not] at hno
      obtain ⟨hpos, hdest, hone⟩ := hno
      obtain ⟨hok, hrefers⟩ := InjectCall.writemsg_refers hdest hsize hpos hone context
        (flags ||| fiInject)
      exact hrefers (hinit.2 hok)
  · intro h env domain acts hrun
    refine InjectCall.injects_of_copies env _ ?_
    rw [Ep.cfg_after hrun]
    exact h

/-- A small message injected with `fi_sendmsg`, ring on, on a fresh endpoint. -/
theorem small_send_injects :
    let cfg := EpCfg.standard true [10, 20] 10
    let c : InjectCall := .sendmsg [⟨4096, 64⟩] 1 0 0 7 0 false
    (rdsIni { eagerRdma := some true }).Configures cfg ∧ c.total ≤ rdsDefInjectSize
      ∧ c.Injects (Env.calm fun _ _ => .ok 1) (Ep.init cfg InjectCall.usedDomain) := by
  intro cfg c
  have hcfg := configures_standard true [10, 20] 10
  have hsize : c.total ≤ rdsDefInjectSize := by decide
  exact ⟨hcfg, hsize, (inject_semantics_iff { eagerRdma := some true } cfg hcfg c hsize).mpr
    (Or.inl (by decide)) (Env.calm fun _ _ => .ok 1) InjectCall.usedDomain [] trivial⟩

/-- **Three promises broken.** With an eager threshold of 100 bytes, `fi_inject` refuses
200. With the ring on and everything else at its defaults, `fi_sendmsg` with `FI_INJECT`
takes 4096 bytes and leaves a request that names them. At the defaults, `fi_writemsg` with
`FI_INJECT` leaves the caller's buffer in the local vector of an operation in flight. -/
theorem broken_injections :
    let fresh (cfg : EpCfg) := Ep.init cfg InjectCall.usedDomain
    let small : EpCfg := { EpCfg.standard false [10, 20] 10 with eagerSize := 100 }
    (rdsIni { eagerSize := some 100 }).Configures small
      ∧ (InjectCall.run InjectCall.ringless (fresh small) (.inject 4096 200 1 0 false)).2
        = .err fiEmsgsize
      ∧ (let ep := fresh (EpCfg.standard true [10, 20] 10)
        let r := InjectCall.run InjectCall.ringless ep (.sendmsg [⟨4096, 4096⟩] 1 0 0 7 0 false)
        r.2 = .ok ∧ ¬ ep.Detached r.1)
      ∧ (let r := InjectCall.run InjectCall.ringless (fresh (EpCfg.standard false [10, 20] 10))
          (.writemsg [⟨4096, 16⟩] 1 [(8192, 5)] 7 0)
        r.2 = .ok ∧ r.1.inflight.map (·.loc) = [.iov [⟨4096, 16⟩]]) := by
  intro fresh small
  refine ⟨⟨by decide, rfl, rfl, rfl, rfl⟩, by decide, ?_, ⟨?_, ?_⟩⟩
  · exact InjectCall.genericSend_refers (by decide) (by decide) (by decide) (by decide) (by decide)
      0 0 7 (0 ||| fiInject) false
  · decide +kernel
  · decide +kernel
