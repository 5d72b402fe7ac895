import RdsProv.Machine

/-!
# One-sided transfers

`rds_rma_common` cuts a transfer into operations of at most `RDS_KERNEL_SEG_MAX`
bytes and at most `RDS_IOV_LIMIT` local entries. Which operations those are is decided
by the local scatter list alone: `rmaPlan` lists them, and they tile the transfer
(`tiles_rmaPlan`). What the socket answers decides only how far the loop gets: it issues
an initial part of the plan (`rdsRmaLoop_issues`).

The notifications of the parts that went out complete the operation, in whatever order
they come. A transfer of no bytes has an empty plan, hence no notification, and its
completion is never written.
-/

/-! ## The plan -/

/-- One operation of a transfer: where it starts, how many bytes it covers, and its
local vector. -/
structure RmaChunk where
  off : ℕ
  len : ℕ
  liov : List Iovec
  deriving DecidableEq, Repr

/-- The operations of a transfer from an offset on, if nothing is refused. -/
def rmaPlan (iov : List Iovec) : ℕ → ℕ → List RmaChunk
  | 0, _ => []
  | fuel + 1, off =>
    if off < ofiTotalIovLen iov then
      let slice := rdsIovSlice iov off (min (ofiTotalIovLen iov - off) rdsKernelSegMax)
      ⟨off, slice.2, slice.1⟩ :: rmaPlan iov fuel (off + slice.2)
    else []

/-- **An operation covers its part**: it is neither empty nor too long, and its local
vector enumerates the bytes of the scatter list from its offset on. -/
structure RmaChunk.Covers (iov : List Iovec) (c : RmaChunk) : Prop where
  pos : 0 < c.len
  le : c.len ≤ rdsKernelSegMax
  entries : c.liov.length ≤ rdsIovLimit
  bytes : iovAddrs c.liov = ((iovAddrs iov).drop c.off).take c.len
  len : ofiTotalIovLen c.liov = c.len

/-- **Operations tile a scatter list** from an offset on: each starts where the one
before it ended, and the last ends where the list does. -/
def Tiles (iov : List Iovec) : ℕ → List RmaChunk → Prop
  | off, [] => off = ofiTotalIovLen iov
  | off, c :: cs => c.off = off ∧ c.Covers iov ∧ Tiles iov (off + c.len) cs

namespace Tiles

variable {iov : List Iovec} {off : ℕ} {cs : List RmaChunk}

/-- The lengths of the operations add up to what is left. -/
theorem sum (h : Tiles iov off cs) : off + (cs.map RmaChunk.len).sum = ofiTotalIovLen iov := by
  induction cs generalizing off with
  | nil => simpa [Tiles] using h
  | cons c cs ih =>
    have hrest := ih h.2.2
    simp only [List.map_cons, List.sum_cons]
    omega

/-- There are no more operations than bytes. -/
theorem length_le (h : Tiles iov off cs) : off + cs.length ≤ ofiTotalIovLen iov := by
  induction cs generalizing off with
  | nil => exact le_of_eq h
  | cons c cs ih =>
    have hrest := ih h.2.2
    have hpos := h.2.1.pos
    rw [List.length_cons]
    omega

theorem covers (h : Tiles iov off cs) {c : RmaChunk} (hc : c ∈ cs) : c.Covers iov := by
  induction cs generalizing off with
  | nil => cases hc
  | cons d cs ih =>
    obtain rfl | hc := List.mem_cons.mp hc
    · exact h.2.1
    · exact ih h.2.2 hc

end Tiles

/-- What the loop maps in one round. -/
theorem covers_slice (iov : List Iovec) {off : ℕ} (hoff : off < ofiTotalIovLen iov) :
    RmaChunk.Covers iov
      ⟨off, (rdsIovSlice iov off (min (ofiTotalIovLen iov - off) rdsKernelSegMax)).2,
        (rdsIovSlice iov off (min (ofiTotalIovLen iov - off) rdsKernelSegMax)).1⟩ where
  pos := rdsIovSlice_pos iov (Nat.lt_min.mpr ⟨Nat.sub_pos_of_lt hoff, by decide⟩) hoff
  le := (rdsIovSlice_le_len iov off _).trans (Nat.min_le_right _ _)
  entries := length_rdsIovSlice iov off _
  bytes := iovAddrs_rdsIovSlice iov off _
  len := ofiTotalIovLen_rdsIovSlice iov off _

/-- **The plan tiles the transfer**, if it has a round for every byte left. -/
theorem tiles_rmaPlan (iov : List Iovec) (fuel off : ℕ) (hoff : off ≤ ofiTotalIovLen iov)
    (hfuel : ofiTotalIovLen iov ≤ off + fuel) : Tiles iov off (rmaPlan iov fuel off) := by
  induction fuel generalizing off with
  | zero => exact Nat.le_antisymm hoff hfuel
  | succ fuel ih =>
    rw [rmaPlan]
    split
    · rename_i hlt
      have hcovers := covers_slice iov hlt
      have hle := rdsIovSlice_le_total iov off (min (ofiTotalIovLen iov - off) rdsKernelSegMax)
      dsimp only
      generalize rdsIovSlice iov off (min (ofiTotalIovLen iov - off) rdsKernelSegMax) = slice
        at hcovers hle ⊢
      have hpos : 0 < slice.2 := hcovers.pos
      refine ⟨rfl, hcovers, ih (off + slice.2) ?_ ?_⟩
      · omega
      · omega
    · exact Nat.le_antisymm hoff (by omega)

/-! ## The loop -/

/-- The RDMA operation of a part. -/
def RmaChunk.op (c : RmaChunk) (dest : SockAddr) (key remoteOff : UInt64) (isWrite : Bool)
    (token : UInt64) : RdmaOp :=
  rmaOp dest key (remoteOff + UInt64.ofNat c.off) (.iov c.liov) isWrite token

section Loop

variable (env : Env) (dest : SockAddr) (key remoteOff : UInt64) (isWrite : Bool) (iov : List Iovec)

/-- **The loop issues the plan until something is refused.** -/
theorem rdsRmaLoop_issues (fuel off : ℕ) (ep : Ep) (p : Pending) {r : Ep × Pending × Ret}
    (hr : rdsRmaLoop env dest key remoteOff isWrite iov (ofiTotalIovLen iov) fuel off ep p = r) :
    ∃ issued rest t, rmaPlan iov fuel off = issued ++ rest
      ∧ r.1 = { ep with
          tick := t
          inflight := ep.inflight
            ++ issued.map (fun c => c.op dest key remoteOff isWrite p.id) }
      ∧ r.2.1 = { p with segRemaining := p.segRemaining + UInt32.ofNat issued.length }
      ∧ (r.2.2 = .ok ↔ rest = [])
      ∧ ((∀ t op, env.sendmsg t (.rdma op) = none) → rest = []) := by
  induction fuel generalizing off ep p with
  | zero =>
    rw [← hr]
    refine ⟨[], [], ep.tick, rfl, ?_, ?_, by simp [rdsRmaLoop], fun _ => rfl⟩
    · simp [rdsRmaLoop]
    · simp [rdsRmaLoop]
  | succ fuel ih =>
    rw [rdsRmaLoop] at hr
    rw [rmaPlan]
    by_cases hoff : off < ofiTotalIovLen iov
    swap
    · rw [if_neg hoff] at hr
      rw [← hr, if_neg hoff]
      refine ⟨[], [], ep.tick, rfl, ?_, ?_, by simp, fun _ => rfl⟩
      · simp
      · simp
    have hcovers := covers_slice iov hoff
    rw [if_pos hoff] at hr ⊢
    dsimp only at hr ⊢
    generalize rdsIovSlice iov off (min (ofiTotalIovLen iov - off) rdsKernelSegMax) = slice
      at hr hcovers
    set c : RmaChunk := ⟨off, slice.2, slice.1⟩ with hc
    rw [if_neg hcovers.pos.ne'] at hr
    have hcnt : 0 < slice.1.length := by
      refine List.length_pos_iff.mpr (fun hnil => ?_)
      have hlen : ofiTotalIovLen slice.1 = slice.2 := hcovers.len
      have hpos : 0 < slice.2 := hcovers.pos
      rw [hnil, ofiTotalIovLen_nil] at hlen
      omega
    have hle : slice.1.length ≤ rdsIovLimit := hcovers.entries
    -- the part is refused: it and what follows are left
    have hleft {t : ℕ} {e : ℕ+} (hrefused : ∃ t op, env.sendmsg t (.rdma op) ≠ none)
        (hr : (({ ep with tick := t } : Ep), p, Ret.err e) = r) :
        ∃ issued rest t, c :: rmaPlan iov fuel (off + slice.2) = issued ++ rest
          ∧ r.1 = { ep with
              tick := t
              inflight := ep.inflight
                ++ issued.map (fun c => c.op dest key remoteOff isWrite p.id) }
          ∧ r.2.1 = { p with segRemaining := p.segRemaining + UInt32.ofNat issued.length }
          ∧ (r.2.2 = .ok ↔ rest = [])
          ∧ ((∀ t op, env.sendmsg t (.rdma op) = none) → rest = []) := by
      rw [← hr]
      refine ⟨[], _, t, rfl, ?_, ?_, by simp, fun hok => ?_⟩
      · simp
      · simp
      · obtain ⟨t, op, hne⟩ := hrefused
        exact absurd (hok t op) hne
    obtain ⟨hbad, -⟩ | ⟨e, e', hsend, -, h⟩ | ⟨-, -, h⟩ | ⟨-, hn, -⟩ :=
      rdsPostRdma_cases env ep (c.op dest key remoteOff isWrite p.id)
    · have hcount : (c.op dest key remoteOff isWrite p.id).loc.cnt = slice.1.length := rfl
      rw [hcount] at hbad
      omega
    · have h' : rdsPostRdma env ep (rmaOp dest key (remoteOff + UInt64.ofNat off) (.iov slice.1)
          isWrite p.id) = _ := h
      rw [h'] at hr
      exact hleft ⟨_, _, by rw [hsend]; simp⟩ hr
    · have h' : rdsPostRdma env ep (rmaOp dest key (remoteOff + UInt64.ofNat off) (.iov slice.1)
          isWrite p.id) = _ := h
      rw [h'] at hr
      obtain ⟨issued, rest, t, hplan, hep, hp, hret, hok⟩ := ih _ _ _ hr
      refine ⟨c :: issued, rest, t, by rw [hplan]; rfl, ?_, ?_, hret, hok⟩
      · rw [hep]
        simp
      · rw [hp, List.length_cons, Nat.add_comm, UInt32.ofNat_add]
        simp only [UInt32.add_assoc]
        rfl
    · cases hn

end Loop

/-! ## The call -/

/-- The pending operation of a transfer that awaits a number of notifications. -/
def rmaPending (ep : Ep) (iov : List Iovec) (remoteFi : UInt64) (isWrite : Bool) (context : ℕ)
    (flags : UInt64) (n error : ℕ) : Pending :=
  { Pending.blank (succId ep.opId) .rma context
      (fiRma ||| (if isWrite then fiWrite else fiRead)) with
    len := ofiTotalIovLen iov
    addr := remoteFi
    noComp := !hasFlag (ep.cfg.txOpFlags ||| flags) fiCompletion
    segRemaining := UInt32.ofNat n
    error := error }

/-- **What a call of `rds_rma_common` does.** It fails before anything is tried, or it
issues an initial part of the plan. If that part is empty nothing is left behind;
otherwise the operation is pending, with an error if the plan was cut short. -/
theorem rdsRmaCommon_cases (env : Env) (ep : Ep) {iov : List Iovec}
    (htotal : ofiTotalIovLen iov ≤ rdsMaxMsgSize) (remoteFi remoteOff key : UInt64)
    (isWrite : Bool) (context : ℕ) (flags : UInt64) {r : Ep × Ret}
    (hr : rdsRmaCommon env ep iov remoteFi remoteOff key isWrite context flags = r) :
    ((rdsAvAddr ep.cfg remoteFi = none ∨ env.alloc ep.tick = false)
        ∧ ∃ t e, r = ({ ep with tick := t }, .err e))
      ∨ ∃ dest issued rest t, rdsAvAddr ep.cfg remoteFi = some dest ∧ env.alloc ep.tick = true
        ∧ rmaPlan iov (ofiTotalIovLen iov) 0 = issued ++ rest
        ∧ ((∀ t op, env.sendmsg t (.rdma op) = none) → rest = [])
        ∧ ((issued = [] ∧ r.1 = ep.issued t [] ∧ (r.2 = .ok ↔ rest = []))
          ∨ ∃ error, issued ≠ [] ∧ (error = 0 ↔ rest = [])
            ∧ r = ((ep.issued t (issued.map (fun c =>
                c.op dest key remoteOff isWrite (succId ep.opId)))).linkPending
              (rmaPending ep iov remoteFi isWrite context flags issued.length error), .ok)) := by
  unfold rdsRmaCommon at hr
  dsimp only at hr
  rw [if_neg (not_lt.mpr htotal)] at hr
  cases hdest : rdsAvAddr ep.cfg remoteFi with
  | none =>
    rw [hdest] at hr
    exact .inl ⟨.inl rfl, ep.tick, fiEinval, hr.symm⟩
  | some dest =>
    rw [hdest] at hr
    dsimp only at hr
    cases halloc : env.alloc ep.tick with
    | false =>
      have h : rdsPendingAlloc env ep .rma context (fiRma ||| (if isWrite then fiWrite else fiRead))
          = ({ ep with tick := ep.tick + 1 }, none) := by
        unfold rdsPendingAlloc Ep.malloc
        rw [halloc]
      rw [h] at hr
      exact .inl ⟨.inr rfl, ep.tick + 1, fiEnomem, hr.symm⟩
    | true =>
      obtain ⟨hfalse, -⟩ | h := rdsPendingAlloc_cases env ep .rma context
        (fiRma ||| (if isWrite then fiWrite else fiRead))
      · rw [halloc] at hfalse
        cases hfalse
      rw [h] at hr
      dsimp only at hr
      generalize hloop : rdsRmaLoop env dest key remoteOff isWrite iov (ofiTotalIovLen iov)
        (ofiTotalIovLen iov) 0 _ _ = s at hr
      obtain ⟨issued, rest, t, hplan, hep, hp, hret, hok⟩ :=
        rdsRmaLoop_issues env dest key remoteOff isWrite iov _ _ _ _ hloop
      obtain ⟨e, p, ret⟩ := s
      dsimp only at hep hp hret hr
      refine .inr ⟨dest, issued, rest, t, rfl, rfl, hplan, hok, ?_⟩
      -- the counter does not wrap: there are fewer parts than bytes
      have hfew : issued.length < 2 ^ 32 := by
        have htiles := tiles_rmaPlan iov (ofiTotalIovLen iov) 0 (Nat.zero_le _) (by omega)
        have hle := htiles.length_le
        rw [hplan, List.length_append] at hle
        have hmax : rdsMaxMsgSize = 268435456 := rfl
        omega
      have hp : p = rmaPending ep iov remoteFi isWrite context flags issued.length 0 := by
        rw [hp]
        simp [rmaPending, Pending.blank]
      have hzero : p.segRemaining = 0 ↔ issued = [] := by
        rw [hp, rmaPending, ← UInt32.toNat_inj, UInt32.toNat_ofNat', Nat.mod_eq_of_lt hfew]
        exact List.length_eq_zero_iff
      by_cases hissued : issued = []
      · rw [if_pos (hzero.mpr hissued)] at hr
        refine .inl ⟨hissued, ?_, ?_⟩
        · rw [← hr, hep, hissued]
          rfl
        · rw [← hr]
          exact hret
      · rw [if_neg (fun h => hissued (hzero.mp h))] at hr
        refine .inr ?_
        cases hcut : ret with
        | ok =>
          rw [hcut] at hr hret
          refine ⟨0, hissued, iff_of_true rfl (hret.mp rfl), ?_⟩
          rw [← hr, hep, hp]
          rfl
        | err err =>
          rw [hcut] at hr hret
          refine ⟨err, hissued,
            iff_of_false err.ne_zero (fun hrest => by simpa using hret.mpr hrest), ?_⟩
          rw [← hr, hep, hp]
          rfl

/-- **A one-sided transfer is tiled by its operations.** If no post fails, the loop ends
with the whole transfer issued: the operations are consecutive from offset `0` to the
total, at the same offsets of the remote region as of the local list, and none of them
was given up. -/
theorem rma_chunks_tile (env : Env) (hpost : ∀ t op, env.sendmsg t (.rdma op) = none) (ep : Ep)
    (iov : List Iovec) (htotal : ofiTotalIovLen iov ≤ rdsMaxMsgSize)
    (remoteFi remoteOff key : UInt64) (isWrite : Bool) (context : ℕ) (flags : UInt64)
    (dest : SockAddr) (hdest : rdsAvAddr ep.cfg remoteFi = some dest)
    (halloc : env.alloc ep.tick = true) :
    let r := rdsRmaCommon env ep iov remoteFi remoteOff key isWrite context flags
    ∃ chunks, Tiles iov 0 chunks ∧ (chunks.map RmaChunk.len).sum = ofiTotalIovLen iov
      ∧ r.1.inflight = ep.inflight
        ++ chunks.map (fun c => c.op dest key remoteOff isWrite (succId ep.opId))
      ∧ r.1.pending = ep.pending ++ (if chunks = [] then [] else
        [rmaPending ep iov remoteFi isWrite context flags chunks.length 0])
      ∧ r.2 = .ok := by
  intro r
  have htiles := tiles_rmaPlan iov (ofiTotalIovLen iov) 0 (Nat.zero_le _) (Nat.le_add_left _ _)
  have hsum := htiles.sum
  rw [Nat.zero_add] at hsum
  refine ⟨rmaPlan iov (ofiTotalIovLen iov) 0, htiles, hsum, ?_⟩
  obtain ⟨hfail, -⟩ | ⟨dest', issued, rest, t, hdest', -, hplan, hall, hr⟩ :=
    rdsRmaCommon_cases env ep htotal remoteFi remoteOff key isWrite context flags
      (show _ = r from rfl)
  · rw [hdest, halloc] at hfail
    simp at hfail
  rw [hdest] at hdest'
  cases hdest'
  rw [hall hpost, List.append_nil] at hplan
  rw [hplan]
  obtain ⟨hnil, hep, hret⟩ | ⟨error, hne, herror, heq⟩ := hr
  · rw [hnil, hep]
    refine ⟨rfl, ?_, hret.mpr (hall hpost)⟩
    simp [Ep.issued]
  · rw [heq, if_neg hne, herror.mpr (hall hpost)]
    exact ⟨rfl, rfl, rfl⟩

/-- Eight pieces of one byte, an empty one, and one of two mebibytes. -/
def longVector : List Iovec :=
  (List.range 8).map (fun i => ⟨4096 * i, 1⟩) ++ [⟨65536, 0⟩, ⟨1048576, 2097152⟩]

/-- A write that takes three operations: the first has as many entries as one can have, and
the others are as long as one can be. -/
theorem write_in_pieces_tiles :
    let ep := Ep.init (EpCfg.standard false [10, 20] 10) (Domain.opened false (some 3) 0 0)
    let r := rdsRmaCommon (Env.calm fun _ _ => .ok 1) ep longVector 1 0 7 true 5 fiCompletion
    ∃ chunks, chunks.length = 3 ∧ Tiles longVector 0 chunks
      ∧ (chunks.map RmaChunk.len).sum = 2097160
      ∧ r.1.inflight = chunks.map (fun c => c.op 20 7 0 true 1) := by
  intro ep r
  obtain ⟨chunks, htiles, hsum, hinflight, -⟩ := rma_chunks_tile (Env.calm fun _ _ => .ok 1)
    (fun _ _ => rfl) ep longVector (by decide) 1 0 7 true 5 fiCompletion 20 rfl rfl
  have hlen : r.1.inflight.length = chunks.length :=
    (congrArg List.length hinflight).trans (List.length_map _)
  exact ⟨chunks, hlen.symm.trans (by decide +kernel), htiles, hsum, hinflight⟩

/-! ## Notifications -/

/-- The notification of an operation that was in flight: the environment in which it is
handled, the operation, and its status. -/
structure Notice where
  env : Env
  op : RdmaOp
  status : ℤ

/-- A notification is handled. -/
def Ep.notice (ep : Ep) (n : Notice) : Ep := ep.act (.notify n.env n.op n.status)

/-- **A one-sided operation counts its notifications**, and is completed by the last. -/
theorem Ep.notice_rma {ep : Ep} {p : Pending} (hfind : rdsPendingFind ep p.id = some p)
    (htype : p.type = .rma) (hrem : p.segRemaining ≠ 0) {n : Notice} (htoken : n.op.token = p.id) :
    let q : Pending :=
      { p with error := (p.heed n.status).error, segRemaining := p.segRemaining - 1 }
    let e : Ep := { ep with inflight := ep.inflight.erase n.op }
    ep.notice n = if p.segRemaining - 1 = 0 then rdsPendingComplete e q else e.storePending q := by
  intro q e
  have hfind' : rdsPendingFind e p.id = some p := hfind
  have hacks : p.acks n.status = [] := if_neg (by rw [htype]; decide)
  show rdsHandleRdmaNotify n.env e n.op.token n.status = _
  rw [htoken, rdsHandleRdmaNotify_found n.env hfind', hacks, List.append_nil]
  dsimp only
  rw [if_neg hrem]
  by_cases hlast : p.segRemaining - 1 = 0
  · rw [if_neg (not_not_intro hlast), if_pos hlast]
    simp only [htype]
    rw [← htype]
  · rw [if_pos hlast, if_neg hlast]

/-- **The notifications of an operation write one entry**, in error if one of them was
or the operation already had an error. -/
theorem Ep.notices_rma (ns : List Notice) {ep : Ep} {p : Pending}
    (hfind : rdsPendingFind ep p.id = some p) (htype : p.type = .rma) (hcomp : p.noComp = false)
    (hcq : ep.cfg.hasTxCq = true) (hlen : p.segRemaining.toNat = ns.length) (hne : ns ≠ [])
    (htoken : ∀ n ∈ ns, n.op.token = p.id) :
    ∃ err, (ns.foldl Ep.notice ep).txCq
        = ep.txCq ++ [⟨p.context, p.flags, p.len, 0, 0, none, err⟩]
      ∧ (err ≠ 0 ↔ p.error ≠ 0 ∨ ∃ n ∈ ns, n.status ≠ 0) := by
  induction ns generalizing ep p with
  | nil => exact absurd rfl hne
  | cons n ns ih =>
    rw [List.length_cons] at hlen
    have hrem : p.segRemaining ≠ 0 := by
      rintro hzero
      rw [hzero] at hlen
      simp at hlen
    have hstep := notice_rma hfind htype hrem (htoken n List.mem_cons_self)
    have hminus : (p.segRemaining - 1).toNat = ns.length := by
      rw [UInt32.toNat_sub_of_le]
      · rw [hlen]
        rfl
      · rw [UInt32.le_iff_toNat_le, hlen]
        exact Nat.le_add_left 1 _
    dsimp only at hstep
    rw [List.foldl_cons, hstep]
    have hheed := p.heed_error n.status
    set q : Pending :=
      { p with error := (p.heed n.status).error, segRemaining := p.segRemaining - 1 } with hq
    by_cases hnil : ns = []
    · -- the last notification
      have hlast : p.segRemaining - 1 = 0 := by
        rw [← UInt32.toNat_inj, hminus, hnil]
        rfl
      subst hnil
      have hcq' : ({ ep with inflight := ep.inflight.erase n.op } : Ep).cfg.hasTxCq = true := hcq
      rw [if_pos hlast, List.foldl_nil, txCq_rdsPendingComplete,
        if_pos ⟨.inr htype, by rw [show q.noComp = false from hcomp]; rfl⟩, txEntries, if_pos hcq']
      exact ⟨q.error, rfl, by simpa using hheed⟩
    · have hmore : p.segRemaining - 1 ≠ 0 := by
        intro hzero
        rw [hzero] at hminus
        exact hnil (List.length_eq_zero_iff.mp hminus.symm)
      rw [if_neg hmore]
      have hfind' : rdsPendingFind (({ ep with inflight := ep.inflight.erase n.op } :
          Ep).storePending q) q.id = some q := by
        have hmod := List.find?_modifyFirst (p := fun x : Pending => x.id == q.id)
          (f := fun _ => q) (fun _ _ => by simp) ep.pending
        have hp : ep.pending.find? (fun x => x.id == q.id) = some p := hfind
        rw [hp] at hmod
        exact hmod
      obtain ⟨err, htx, herr⟩ := ih hfind' htype hcomp hcq hminus hnil
        (fun m hm => htoken m (List.mem_cons_of_mem _ hm))
      refine ⟨err, htx, herr.trans ?_⟩
      rw [show q.error = (p.heed n.status).error from rfl, hheed, or_assoc]
      simp

/-! ## Exactly one completion -/

/-- **A one-sided call is reported exactly once.** If it returns an error, it has issued
nothing and left nothing pending. If it returns `0` and its completion was asked for,
the notifications of what it issued write one entry with its context, in error exactly
if a part could not be issued or a notification was in error. -/
def RmaReportedOnce (env : Env) (ep : Ep) (iov : List Iovec) (remoteFi remoteOff key : UInt64)
    (isWrite : Bool) (context : ℕ) (flags : UInt64) (ns : List Notice) : Prop :=
  let r := rdsRmaCommon env ep iov remoteFi remoteOff key isWrite context flags
  (∀ e, r.2 = .err e → r.1.inflight = ep.inflight ∧ r.1.pending = ep.pending)
    ∧ (r.2 = .ok → hasFlag (ep.cfg.txOpFlags ||| flags) fiCompletion = true →
      ∃ err, (ns.foldl Ep.notice r.1).txCq = ep.txCq
          ++ [⟨context, fiRma ||| (if isWrite then fiWrite else fiRead), ofiTotalIovLen iov, 0, 0,
            none, err⟩]
        ∧ (err ≠ 0 ↔ (r.1.inflight.drop ep.inflight.length).length
            < (rmaPlan iov (ofiTotalIovLen iov) 0).length ∨ ∃ n ∈ ns, n.status ≠ 0))

/-- The operation has an id that no other has: its notifications are its own. -/
theorem rmaReportedOnce_iff_of_fresh (env : Env) (ep : Ep) (hcq : ep.cfg.hasTxCq = true)
    (hfresh : ∀ p ∈ ep.pending, p.id ≠ succId ep.opId) (iov : List Iovec)
    (htotal : ofiTotalIovLen iov ≤ rdsMaxMsgSize) (remoteFi remoteOff key : UInt64)
    (isWrite : Bool) (context : ℕ) (flags : UInt64) (ns : List Notice)
    (hns : (ns.map Notice.op).Perm ((rdsRmaCommon env ep iov remoteFi remoteOff key isWrite context
      flags).1.inflight.drop ep.inflight.length)) :
    RmaReportedOnce env ep iov remoteFi remoteOff key isWrite context flags ns
      ↔ ¬ (ofiTotalIovLen iov = 0 ∧ (rdsAvAddr ep.cfg remoteFi).isSome ∧ env.alloc ep.tick = true
        ∧ hasFlag (ep.cfg.txOpFlags ||| flags) fiCompletion = true) := by
  have hempty : ofiTotalIovLen iov = 0 ↔ rmaPlan iov (ofiTotalIovLen iov) 0 = [] := by
    have htiles := tiles_rmaPlan iov (ofiTotalIovLen iov) 0 (Nat.zero_le _) (Nat.le_add_left _ _)
    constructor
    · intro hzero
      rw [hzero]
      rfl
    · intro hnil
      rw [hnil] at htiles
      exact htiles.symm
  unfold RmaReportedOnce
  generalize hr : rdsRmaCommon env ep iov remoteFi remoteOff key isWrite context flags = r at hns ⊢
  dsimp only
  obtain ⟨hfail, t, e, rfl⟩ | ⟨dest, issued, rest, t, hdest, halloc, hplan, -, hr⟩ :=
    rdsRmaCommon_cases env ep htotal remoteFi remoteOff key isWrite context flags hr
  · -- it failed before anything was tried
    refine iff_of_true ⟨fun _ _ => ⟨rfl, rfl⟩, fun hok => by cases hok⟩ ?_
    rintro ⟨-, hsome, halloc, -⟩
    obtain hnone | hfalse := hfail
    · rw [hnone] at hsome
      cases hsome
    · rw [halloc] at hfalse
      cases hfalse
  obtain ⟨rfl, hep, hret⟩ | ⟨error, hne, herror, rfl⟩ := hr
  · -- nothing was issued: it failed, or there was nothing to issue
    have hinflight : r.1.inflight = ep.inflight := by
      rw [hep]
      exact List.append_nil _
    have hpending : r.1.pending = ep.pending := by
      rw [hep]
      rfl
    have hnil : ns = [] := by
      rw [hinflight, List.drop_length, List.perm_nil] at hns
      exact List.map_eq_nil_iff.mp hns
    rw [List.nil_append] at hplan
    rw [hempty, hplan, ← hret, hdest, halloc, hnil, hinflight, List.drop_length]
    have htx : r.1.txCq = ep.txCq := by
      rw [hep]
      rfl
    constructor
    · rintro ⟨-, hone⟩ ⟨hok, -, -, hflag⟩
      obtain ⟨err, hwritten, -⟩ := hone hok hflag
      rw [List.foldl_nil, htx] at hwritten
      simp at hwritten
    · intro hnot
      refine ⟨fun _ _ => ⟨rfl, hpending⟩, fun hok hflag => ?_⟩
      exact absurd ⟨hok, rfl, rfl, hflag⟩ hnot
  · -- something was issued, and its notifications complete the operation
    set ops := issued.map (fun c => c.op dest key remoteOff isWrite (succId ep.opId)) with hops
    set p := rmaPending ep iov remoteFi isWrite context flags issued.length error with hp
    have hdrop : ((ep.issued t ops).linkPending p).inflight.drop ep.inflight.length = ops :=
      List.drop_left
    rw [hdrop] at hns ⊢
    have hcount : ns.length = issued.length := by
      have h := hns.length_eq
      rwa [List.length_map, hops, List.length_map] at h
    have hlong : issued.length + rest.length ≤ ofiTotalIovLen iov := by
      have htiles := tiles_rmaPlan iov (ofiTotalIovLen iov) 0 (Nat.zero_le _) (Nat.le_add_left _ _)
      have hle := htiles.length_le
      rwa [hplan, List.length_append, Nat.zero_add] at hle
    have hpos : 0 < issued.length := List.length_pos_iff.mpr hne
    refine iff_of_true ⟨fun e he => (by cases he), fun _ hflag => ?_⟩ (fun hzero => by omega)
    have hfind : rdsPendingFind ((ep.issued t ops).linkPending p) p.id = some p := by
      show (ep.pending ++ [p]).find? (fun q => q.id == p.id) = some p
      have hnone : ep.pending.find? (fun q => q.id == p.id) = none :=
        List.find?_eq_none.mpr (fun q hq => by
          show ¬ (q.id == succId ep.opId) = true
          simpa using hfresh q hq)
      rw [List.find?_append, hnone]
      simp
    have hrem : p.segRemaining.toNat = ns.length := by
      have hmax : rdsMaxMsgSize = 268435456 := rfl
      show (UInt32.ofNat issued.length).toNat = _
      rw [UInt32.toNat_ofNat', hcount, Nat.mod_eq_of_lt (by omega)]
    have htoken : ∀ n ∈ ns, n.op.token = p.id := by
      intro n hn
      have hop : n.op ∈ ops := hns.mem_iff.mp (List.mem_map_of_mem hn)
      obtain ⟨c, -, hc⟩ := List.mem_map.mp hop
      rw [← hc]
      rfl
    obtain ⟨err, htx, herr⟩ := Ep.notices_rma ns hfind rfl
      (show (!hasFlag (ep.cfg.txOpFlags ||| flags) fiCompletion) = false by rw [hflag]; rfl) hcq
      hrem (List.length_pos_iff.mp (by omega)) htoken
    refine ⟨err, htx, herr.trans (or_congr_left ?_)⟩
    rw [show p.error = error from rfl, ne_eq, herror, hplan, hops, List.length_map,
      List.length_append, ← ne_eq, ← List.length_pos_iff]
    omega

/-- **One-sided operations complete exactly once, unless they are empty.** For every list
and every sequence of outcomes, and the notifications of what was issued in any order, a
call is reported exactly once if and only if it is not an accepted transfer of no bytes
whose completion was asked for. -/
theorem rma_reported_once_iff (env : Env) (ep : Ep) (hcq : ep.cfg.hasTxCq = true)
    (hfresh : ∀ p ∈ ep.pending, p.id ≠ succId ep.opId) (iov : List Iovec)
    (htotal : ofiTotalIovLen iov ≤ rdsMaxMsgSize) (remoteFi remoteOff key : UInt64)
    (isWrite : Bool) (context : ℕ) (flags : UInt64) (ns : List Notice)
    (hns : (ns.map Notice.op).Perm ((rdsRmaCommon env ep iov remoteFi remoteOff key isWrite context
      flags).1.inflight.drop ep.inflight.length)) :
    RmaReportedOnce env ep iov remoteFi remoteOff key isWrite context flags ns
      ↔ ¬ (ofiTotalIovLen iov = 0 ∧ (rdsAvAddr ep.cfg remoteFi).isSome ∧ env.alloc ep.tick = true
        ∧ hasFlag (ep.cfg.txOpFlags ||| flags) fiCompletion = true) :=
  rmaReportedOnce_iff_of_fresh env ep hcq hfresh iov htotal remoteFi remoteOff key isWrite context
    flags ns hns

/-- A write of three operations, whose notifications come in another order and of which one
failed, is reported once, with the error. -/
theorem failed_write_reported_once :
    let ep := Ep.init (EpCfg.standard false [10, 20] 10) (Domain.opened false (some 3) 0 0)
    let env := Env.calm fun _ _ => .ok 1
    let first := rmaOp 20 7 0 (.iov ((List.range 8).map (fun i => ⟨4096 * i, 1⟩))) true 1
    let second := rmaOp 20 7 8 (.iov [⟨1048576, 1048576⟩]) true 1
    let third := rmaOp 20 7 1048584 (.iov [⟨2097152, 1048576⟩]) true 1
    RmaReportedOnce env ep longVector 1 0 7 true 5 fiCompletion
      [⟨env, third, 0⟩, ⟨env, first, -5⟩, ⟨env, second, 0⟩] := by
  intro ep env first second third
  refine (rma_reported_once_iff env ep rfl (fun _ hp => by cases hp) longVector (by decide) 1 0 7
    true 5 fiCompletion _ ?_).mpr (fun h => absurd h.1 (by decide))
  decide +kernel

/-- **An empty write is accepted and never reported.** Nothing is issued, so nothing will
be notified; the call returns `0`, the operation is gone, and no entry was written. -/
theorem empty_write_is_never_reported :
    let ep := Ep.init (EpCfg.standard false [10, 20] 10) (Domain.opened false (some 3) 0 0)
    let env := Env.calm fun _ _ => .ok 1
    let r := rdsRmaCommon env ep [⟨4096, 0⟩] 1 0 7 true 5 fiCompletion
    r.2 = .ok ∧ r.1.inflight = [] ∧ r.1.pending = [] ∧ r.1.txCq = []
      ∧ ¬ RmaReportedOnce env ep [⟨4096, 0⟩] 1 0 7 true 5 fiCompletion [] := by
  intro ep env r
  refine ⟨by decide +kernel, by decide +kernel, by decide +kernel, by decide +kernel, ?_⟩
  rintro ⟨-, hone⟩
  obtain ⟨err, htx, -⟩ := hone (by decide +kernel) (by decide +kernel)
  have hnone : (List.foldl Ep.notice (rdsRmaCommon env ep [⟨4096, 0⟩] 1 0 7 true 5 fiCompletion).1
      []).txCq = [] := by decide +kernel
  rw [hnone] at htx
  cases htx
