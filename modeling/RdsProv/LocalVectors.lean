import RdsProv.Transfer

/-!
# The local vectors of RDMA operations

A local vector is a slice of the application's scatter list. `rds_iov_slice` skips the
entries before its window, and an empty entry at the very start of the window is
skipped with them. An empty entry *inside* the window is not: it becomes an entry of the
vector, with length zero. `emptyInside` says when a window has one.

The two routines that cut windows – `rds_start_rndzv_read`, one for each source segment,
and `rds_rma_common`, one for each part of the plan – therefore make operations without
empty entries exactly for the lists that have no empty entry inside one of their windows.
-/

/-! ## Slices with empty entries -/

/-- How many entries of a list that starts at `pos` reach past `off`. -/
def entriesPast (off : ℕ) : ℕ → List Iovec → ℕ
  | _, [] => 0
  | pos, v :: l => (if pos + v.len ≤ off then 0 else 1) + entriesPast off (pos + v.len) l

/-- **An empty entry stands inside the window** `[off, off + len)`, among the entries
that a vector has room for. -/
def emptyInside (iov : List Iovec) (off len : ℕ) : Prop :=
  ∃ l v r, iov = l ++ v :: r ∧ v.len = 0 ∧ off < ofiTotalIovLen l
    ∧ ofiTotalIovLen l < off + len ∧ entriesPast off 0 l < rdsIovLimit

/-- The loop produces an empty entry exactly if one stands between the start of its
window and the end. -/
theorem rdsIovSliceLoop_solid_iff (src : List Iovec) (pos off len dn : ℕ) :
    (∀ v ∈ (rdsIovSliceLoop src pos off len dn).1, v.len ≠ 0)
      ↔ ¬ ∃ l v r, src = l ++ v :: r ∧ v.len = 0 ∧ off < pos + ofiTotalIovLen l
        ∧ pos + ofiTotalIovLen l < max pos off + len
        ∧ dn + entriesPast off pos l < rdsIovLimit := by
  induction src generalizing pos len dn with
  | nil => simp [rdsIovSliceLoop]
  | cons w src ih =>
    -- what stands inside is the first entry, or stands inside the rest
    have hsplit : (∃ l v r, w :: src = l ++ v :: r ∧ v.len = 0 ∧ off < pos + ofiTotalIovLen l
        ∧ pos + ofiTotalIovLen l < max pos off + len ∧ dn + entriesPast off pos l < rdsIovLimit)
        ↔ (w.len = 0 ∧ off < pos ∧ 0 < len ∧ dn < rdsIovLimit)
          ∨ ∃ l v r, src = l ++ v :: r ∧ v.len = 0 ∧ off < pos + w.len + ofiTotalIovLen l
            ∧ pos + w.len + ofiTotalIovLen l < max pos off + len
            ∧ dn + (if pos + w.len ≤ off then 0 else 1) + entriesPast off (pos + w.len) l
              < rdsIovLimit := by
      constructor
      · rintro ⟨l, v, r, heq, hv, hlt, hend, hroom⟩
        cases l with
        | nil =>
          cases heq
          simp only [ofiTotalIovLen_nil, entriesPast] at hlt hend hroom
          exact .inl ⟨hv, by omega, by omega, by omega⟩
        | cons x l =>
          cases heq
          simp only [ofiTotalIovLen_cons, entriesPast] at hlt hend hroom
          exact .inr ⟨l, v, r, rfl, hv, by omega, by omega, by omega⟩
      · rintro (⟨hw, hlt, hlen, hroom⟩ | ⟨l, v, r, rfl, hv, hlt, hend, hroom⟩)
        · exact ⟨[], w, src, rfl, hw, by simpa using hlt, by simp; omega,
            by simpa [entriesPast] using hroom⟩
        · refine ⟨w :: l, v, r, rfl, hv, ?_, ?_, ?_⟩
          · simp only [ofiTotalIovLen_cons]
            omega
          · simp only [ofiTotalIovLen_cons]
            omega
          · simp only [entriesPast]
            omega
    rw [hsplit, rdsIovSliceLoop_cons]
    by_cases hstop : len = 0 ∨ rdsIovLimit ≤ dn
    · rw [if_pos hstop]
      refine iff_of_true (by simp) ?_
      rintro (⟨-, -, hlen, hroom⟩ | ⟨l, v, r, -, -, hlt, hend, hroom⟩)
      · omega
      · omega
    rw [if_neg hstop]
    by_cases hskip : pos + w.len ≤ off
    · rw [if_pos hskip, ih, if_pos hskip]
      have hmax : max (pos + w.len) off = max pos off := by omega
      rw [hmax, Nat.add_zero]
      have hnot : ¬ (w.len = 0 ∧ off < pos ∧ 0 < len ∧ dn < rdsIovLimit) := by omega
      rw [or_iff_right hnot]
    rw [if_neg hskip]
    dsimp only
    rw [List.forall_mem_cons, ih, if_neg hskip, not_or]
    have hhead : min (w.len - (off - pos)) len ≠ 0
        ↔ ¬ (w.len = 0 ∧ off < pos ∧ 0 < len ∧ dn < rdsIovLimit) := by omega
    refine and_congr hhead (not_congr ?_)
    -- the rest of the window ends where the window does
    constructor
    · rintro ⟨l, v, r, heq, hv, hlt, hend, hroom⟩
      exact ⟨l, v, r, heq, hv, hlt, by omega, hroom⟩
    · rintro ⟨l, v, r, heq, hv, hlt, hend, hroom⟩
      exact ⟨l, v, r, heq, hv, hlt, by omega, hroom⟩

/-- **A slice has an empty entry exactly if one stands inside its window.** -/
theorem rdsIovSlice_solid_iff (iov : List Iovec) (off len : ℕ) :
    (∀ v ∈ (rdsIovSlice iov off len).1, v.len ≠ 0) ↔ ¬ emptyInside iov off len := by
  rw [rdsIovSlice, rdsIovSliceLoop_solid_iff, Nat.zero_max]
  simp only [Nat.zero_add]
  rfl

/-! ## What is issued and parked -/

/-- **A local vector without empty entries**, of which the kernel takes `1` to
`RDS_IOV_LIMIT`. -/
structure SolidVec (l : List Iovec) : Prop where
  pos : 1 ≤ l.length
  le : l.length ≤ rdsIovLimit
  solid : ∀ v ∈ l, v.len ≠ 0

/-- The vector of application memory that an RDMA operation names. -/
def RdmaOp.vec? (op : RdmaOp) : Option (List Iovec) :=
  match op.loc with
  | .iov l => some l
  | _ => none

/-- The vector that a parked operation names. -/
def Deferred.vec? : Deferred → Option (List Iovec)
  | .fin _ _ => none
  | .read _ _ _ liov _ _ => some liov

/-- A call has issued and parked operations with solid vectors only. -/
def Ep.MakesSolid (ep ep' : Ep) : Prop :=
  (∀ op ∈ ep'.inflight.drop ep.inflight.length, ∀ l, op.vec? = some l → SolidVec l)
    ∧ ∀ d ∈ ep'.deferred.drop ep.deferred.length, ∀ l, d.vec? = some l → SolidVec l

/-- **A call makes vectors of a list**: the operations it issues and parks name vectors of
the list that the kernel has room for, and if nothing is refused it issues all of those. -/
structure Ep.Makes (env : Env) (vecs : List (List Iovec)) (ep ep' : Ep) : Prop where
  inflight : ∃ ops, ep'.inflight = ep.inflight ++ ops
    ∧ (∀ op ∈ ops, ∀ l, op.vec? = some l → l ∈ vecs ∧ 1 ≤ l.length ∧ l.length ≤ rdsIovLimit)
    ∧ ((∀ t op, env.sendmsg t op = none) → ∀ l ∈ vecs, 1 ≤ l.length → l.length ≤ rdsIovLimit →
      ∃ op ∈ ops, op.vec? = some l)
  deferred : ∃ ds, ep'.deferred = ep.deferred ++ ds
    ∧ ∀ d ∈ ds, ∀ l, d.vec? = some l → l ∈ vecs ∧ 1 ≤ l.length ∧ l.length ≤ rdsIovLimit

namespace Ep.Makes

variable {env : Env} {vecs : List (List Iovec)} {ep ep' : Ep}

/-- What is made is solid if the vectors are. -/
theorem makesSolid (h : ep.Makes env vecs ep') (hvecs : ∀ l ∈ vecs, ∀ v ∈ l, v.len ≠ 0) :
    ep.MakesSolid ep' := by
  obtain ⟨⟨ops, hops, hin, -⟩, ds, hds, hpark⟩ := h
  refine ⟨fun op hop l hl => ?_, fun d hd l hl => ?_⟩
  · rw [hops, List.drop_left] at hop
    obtain ⟨hmem, hpos, hle⟩ := hin op hop l hl
    exact ⟨hpos, hle, hvecs l hmem⟩
  · rw [hds, List.drop_left] at hd
    obtain ⟨hmem, hpos, hle⟩ := hpark d hd l hl
    exact ⟨hpos, hle, hvecs l hmem⟩

/-- If nothing is refused, every vector that the kernel takes is made. -/
theorem solid_of_makesSolid (h : ep.Makes env vecs ep')
    (hcalm : ∀ t op, env.sendmsg t op = none) (hsolid : ep.MakesSolid ep') {l : List Iovec}
    (hl : l ∈ vecs) (hle : l.length ≤ rdsIovLimit) : ∀ v ∈ l, v.len ≠ 0 := by
  intro v hv
  obtain ⟨⟨ops, hops, -, hall⟩, -⟩ := h
  obtain ⟨op, hop, hvec⟩ := hall hcalm l hl (List.length_pos_of_mem hv) hle
  refine (hsolid.1 op ?_ l hvec).solid v hv
  rw [hops, List.drop_left]
  exact hop

theorem refl (ep : Ep) : ep.Makes env [] ep :=
  ⟨⟨[], (List.append_nil _).symm, by simp, by simp⟩, [], (List.append_nil _).symm, by simp⟩

theorem trans {vecs' : List (List Iovec)} {e : Ep} (h : ep.Makes env vecs e)
    (h' : e.Makes env vecs' ep') : ep.Makes env (vecs ++ vecs') ep' := by
  obtain ⟨⟨ops, hops, hin, hall⟩, ds, hds, hpark⟩ := h
  obtain ⟨⟨ops', hops', hin', hall'⟩, ds', hds', hpark'⟩ := h'
  refine ⟨⟨ops ++ ops', by rw [hops', hops, List.append_assoc], fun op hop l hl => ?_,
    fun hcalm l hl hpos hle => ?_⟩, ds ++ ds', by rw [hds', hds, List.append_assoc],
    fun d hd l hl => ?_⟩
  · obtain hop | hop := List.mem_append.mp hop
    · exact (hin op hop l hl).imp_left (List.mem_append_left _)
    · exact (hin' op hop l hl).imp_left (List.mem_append_right _)
  · obtain hl | hl := List.mem_append.mp hl
    · obtain ⟨op, hop, hvec⟩ := hall hcalm l hl hpos hle
      exact ⟨op, List.mem_append_left _ hop, hvec⟩
    · obtain ⟨op, hop, hvec⟩ := hall' hcalm l hl hpos hle
      exact ⟨op, List.mem_append_right _ hop, hvec⟩
  · obtain hd | hd := List.mem_append.mp hd
    · exact (hpark d hd l hl).imp_left (List.mem_append_left _)
    · exact (hpark' d hd l hl).imp_left (List.mem_append_right _)

/-- A step that leaves both queues alone, but for a `FIN`. -/
theorem of_fins (hinflight : ep'.inflight = ep.inflight) {ds : List Deferred}
    (hdeferred : ep'.deferred = ep.deferred ++ ds) (hds : ∀ d ∈ ds, d.vec? = none) :
    ep.Makes env [] ep' := by
  refine ⟨⟨[], by rw [hinflight, List.append_nil], by simp, by simp⟩, ds, hdeferred,
    fun d hd l hl => ?_⟩
  rw [hds d hd] at hl
  cases hl

/-- A vector that is not made: the kernel would not take it, or something is refused. -/
theorem unmade {l : List Iovec} (hinflight : ep'.inflight = ep.inflight)
    (hdeferred : ep'.deferred = ep.deferred)
    (hwhy : ¬ (1 ≤ l.length ∧ l.length ≤ rdsIovLimit) ∨ ∃ t op, env.sendmsg t op ≠ none) :
    ep.Makes env [l] ep' := by
  refine ⟨⟨[], by rw [hinflight, List.append_nil], by simp, fun hcalm l' hl' hpos hle => ?_⟩, [],
    by rw [hdeferred, List.append_nil], by simp⟩
  rw [List.mem_singleton.mp hl'] at hpos hle
  obtain hbad | ⟨t, op, hne⟩ := hwhy
  · exact absurd ⟨hpos, hle⟩ hbad
  · exact absurd (hcalm t op) hne

/-! ### Rendezvous reads -/

/-- One read makes one vector, unless it fails. -/
theorem issueRead (env : Env) (peer : SockAddr) (rts : UInt64) (ep : Ep) (p : Pending)
    (r : ReadReq) : ep.Makes env [r.liov] (rdsIssueRead env peer rts (ep, p) r).1 := by
  have hcnt : (r.op peer p.id rts).loc.cnt = r.liov.length := rfl
  unfold rdsIssueRead
  dsimp only
  by_cases hbad : r.liov.length = 0 ∨ rdsIovLimit < r.liov.length
  · have hpost : rdsPostRdma env ep (r.op peer p.id rts) = (ep, .err fiEinval) := by
      unfold rdsPostRdma
      rw [hcnt, if_pos hbad]
    rw [hpost]
    exact unmade rfl rfl (.inl (by omega))
  have hgood : 1 ≤ r.liov.length ∧ r.liov.length ≤ rdsIovLimit := by omega
  obtain ⟨hbad', -⟩ | ⟨e, e', hsend, -, h⟩ | ⟨-, -, h⟩ | ⟨-, hn, -⟩ :=
    rdsPostRdma_cases env ep (r.op peer p.id rts)
  · rw [hcnt] at hbad'
    exact absurd hbad' hbad
  · rw [h]
    dsimp only
    have hrefused : ∃ t op, env.sendmsg t op ≠ none := ⟨_, _, by rw [hsend]; simp⟩
    split
    · unfold Ep.malloc
      cases env.alloc (ep.tick + 1) with
      | false => exact unmade rfl rfl (.inr hrefused)
      | true =>
        refine ⟨⟨[], (List.append_nil _).symm, by simp, fun hcalm => ?_⟩,
          [.read peer r.cookie r.remoteOff r.liov p.id rts], rfl, fun d hd l hl => ?_⟩
        · obtain ⟨t, op, hne⟩ := hrefused
          exact absurd (hcalm t op) hne
        · rw [List.mem_singleton.mp hd] at hl
          cases hl
          exact ⟨List.mem_singleton_self _, hgood⟩
    · exact unmade rfl rfl (.inr hrefused)
  · rw [h]
    refine ⟨⟨[r.op peer p.id rts], rfl, fun op hop l hl => ?_, fun _ l hl _ _ => ?_⟩, [],
      (List.append_nil _).symm, by simp⟩
    · rw [List.mem_singleton.mp hop] at hl
      cases hl
      exact ⟨List.mem_singleton_self _, hgood⟩
    · rw [List.mem_singleton.mp hl]
      exact ⟨_, List.mem_singleton_self _, rfl⟩
  · cases hn

theorem issueReads (env : Env) (peer : SockAddr) (rts : UInt64) (rs : List ReadReq) (ep : Ep)
    (p : Pending) :
    ep.Makes env (rs.map ReadReq.liov) (rs.foldl (rdsIssueRead env peer rts) (ep, p)).1 := by
  induction rs generalizing ep p with
  | nil => exact refl ep
  | cons r rs ih => exact (issueRead env peer rts ep p r).trans (ih _ _)

theorem sendFin (env : Env) (ep : Ep) (peer : SockAddr) (id : UInt64) :
    ep.Makes env [] (rdsSendFin env ep peer id) := by
  obtain h | h | ⟨-, t, h⟩ := rdsSendFin_cases env ep peer id
  · rw [h]
    exact of_fins rfl (List.append_nil _).symm (by simp)
  · rw [h]
    exact of_fins rfl rfl (by simp [Deferred.vec?])
  · rw [h]
    exact of_fins rfl (List.append_nil _).symm (by simp)

theorem outer {e : Ep} (h : ep.Makes env vecs e) (h' : e.Outer ep') : ep.Makes env vecs ep' := by
  refine ⟨?_, ?_⟩
  · rw [h'.inflight]
    exact h.inflight
  · rw [h'.deferred]
    exact h.deferred

/-- **A rendezvous receive makes the vectors of its reads**, if it was allocated. -/
theorem startRndzvRead (env : Env) (ep : Ep) (rx : RxEntry) (hdr : Hdr) (segs : List Seg)
    (peer : SockAddr) (src : UInt64) :
    ep.Makes env (if env.alloc ep.tick then
        (rndzvReads rx.iov (min hdr.size.toNat rx.totalLen) 0 segs).map ReadReq.liov else [])
      (rdsStartRndzvRead env ep rx hdr segs peer src) := by
  refine rdsStartRndzvRead_elim (fun halloc => ?_) (fun halloc e q hreads => ?_)
  · have hstart : ep.Makes env [] { ep with tick := ep.tick + 1 } :=
      of_fins rfl (List.append_nil _).symm (by simp)
    have hfin := hstart.trans (sendFin env { ep with tick := ep.tick + 1 } peer hdr.id)
    rw [halloc]
    exact hfin.outer (rdsCqWriteRx_outer _ _ _ _ _ _ _ _)
  · have hstart : ep.Makes env [] (ep.rxOpened rx hdr) :=
      of_fins rfl (List.append_nil _).symm (by simp)
    have hissue := hstart.trans (issueReads env peer hdr.id
      (rndzvReads rx.iov (min hdr.size.toNat rx.totalLen) 0 segs) (ep.rxOpened rx hdr)
      (ep.rxOperation rx hdr peer src))
    rw [hreads] at hissue
    rw [if_pos halloc]
    split
    · obtain ⟨e', cqes, houter, heq, -⟩ := rdsRndzvRxFinalize_cases env e q
      have hdone := (hissue.trans (sendFin env e q.peer q.peerId)).outer houter
      rw [List.append_nil] at hdone
      rw [heq]
      exact ⟨hdone.inflight, hdone.deferred⟩
    · exact ⟨hissue.inflight, hissue.deferred⟩

/-! ### One-sided transfers -/

/-- A one-sided transfer makes vectors of its plan, and all of them if it is accepted and
nothing is refused. -/
theorem rmaCommon (env : Env) (ep : Ep) {iov : List Iovec}
    (htotal : ofiTotalIovLen iov ≤ rdsMaxMsgSize) (remoteFi remoteOff key : UInt64)
    (isWrite : Bool) (context : ℕ) (flags : UInt64) :
    ep.Makes env (if (rdsAvAddr ep.cfg remoteFi).isSome ∧ env.alloc ep.tick then
        (rmaPlan iov (ofiTotalIovLen iov) 0).map RmaChunk.liov else [])
      (rdsRmaCommon env ep iov remoteFi remoteOff key isWrite context flags).1 := by
  generalize hr : rdsRmaCommon env ep iov remoteFi remoteOff key isWrite context flags = r
  obtain ⟨hfail, t, e, rfl⟩ | ⟨dest, issued, rest, t, hdest, halloc, hplan, hall, hr⟩ :=
    rdsRmaCommon_cases env ep htotal remoteFi remoteOff key isWrite context flags hr
  · have hnot : ¬ ((rdsAvAddr ep.cfg remoteFi).isSome ∧ env.alloc ep.tick) := by
      rintro ⟨hsome, halloc⟩
      obtain hnone | hfalse := hfail
      · rw [hnone] at hsome
        cases hsome
      · rw [halloc] at hfalse
        cases hfalse
    rw [if_neg hnot]
    exact of_fins rfl (List.append_nil _).symm (by simp)
  rw [if_pos ⟨by rw [hdest]; rfl, halloc⟩]
  set ops := issued.map (fun c => c.op dest key remoteOff isWrite (succId ep.opId)) with hops
  obtain ⟨hinflight, hdeferred⟩ :
      r.1.inflight = ep.inflight ++ ops ∧ r.1.deferred = ep.deferred := by
    obtain ⟨hnil, hep, -⟩ | ⟨error, -, -, heq⟩ := hr
    · rw [hep, hops, hnil]
      exact ⟨rfl, rfl⟩
    · rw [heq]
      exact ⟨rfl, rfl⟩
  have htiles := tiles_rmaPlan iov (ofiTotalIovLen iov) 0 (Nat.zero_le _) (Nat.le_add_left _ _)
  refine ⟨⟨ops, hinflight, fun op hop l hl => ?_, fun hcalm l hl hpos hle => ?_⟩, [],
    by rw [hdeferred, List.append_nil], by simp⟩
  · obtain ⟨c, hc, rfl⟩ := List.mem_map.mp hop
    cases hl
    have hmem : c ∈ rmaPlan iov (ofiTotalIovLen iov) 0 := by
      rw [hplan]
      exact List.mem_append_left _ hc
    have hcovers := htiles.covers hmem
    refine ⟨List.mem_map_of_mem hmem, ?_, hcovers.entries⟩
    -- a vector of no entries has no bytes
    refine List.length_pos_iff.mpr (fun hnil => ?_)
    have hlen := hcovers.len
    rw [hnil, ofiTotalIovLen_nil] at hlen
    exact absurd hlen hcovers.pos.ne
  · rw [hplan, hall (fun t op => hcalm t (.rdma op)), List.append_nil] at hl
    obtain ⟨c, hc, rfl⟩ := List.mem_map.mp hl
    exact ⟨_, List.mem_map_of_mem hc, rfl⟩

end Ep.Makes

/-! ## Windows -/

/-- The windows of the receive buffer that `rds_start_rndzv_read` reads into: one for
each source segment, until `effective` bytes are covered. -/
def rndzvWindows (effective : ℕ) : ℕ → List Seg → List (ℕ × ℕ)
  | _, [] => []
  | off, s :: segs =>
    if off < effective then
      (off, min s.len.toNat (effective - off))
        :: rndzvWindows effective (off + min s.len.toNat (effective - off)) segs
    else []

theorem map_liov_rndzvReads (iov : List Iovec) (effective off : ℕ) (segs : List Seg) :
    (rndzvReads iov effective off segs).map ReadReq.liov
      = (rndzvWindows effective off segs).map (fun w => (rdsIovSlice iov w.1 w.2).1) := by
  induction segs generalizing off with
  | nil => rfl
  | cons s segs ih =>
    rw [rndzvReads, rndzvWindows]
    split
    · simp [ih]
    · rfl

/-- The vectors of a plan are slices. -/
theorem liov_of_mem_rmaPlan {iov : List Iovec} {fuel off : ℕ} {c : RmaChunk}
    (hc : c ∈ rmaPlan iov fuel off) :
    c.liov = (rdsIovSlice iov c.off (min (ofiTotalIovLen iov - c.off) rdsKernelSegMax)).1 := by
  induction fuel generalizing off with
  | zero => cases hc
  | succ fuel ih =>
    rw [rmaPlan] at hc
    split at hc
    · obtain rfl | hc := List.mem_cons.mp hc
      · rfl
      · exact ih hc
    · cases hc

/-- An endpoint of which nothing was asked yet. -/
def idleEp : Ep := Ep.init (EpCfg.standard false [10, 20] 10) (Domain.opened false (some 3) 0 0)

/-- **The vectors of RDMA operations have no empty entries exactly if no empty entry stands
inside a window.** Whatever the socket answers, a rendezvous receive issues and parks only
reads with `1` to `RDS_IOV_LIMIT` entries, none of them empty, if and only if its buffer
has no empty entry inside the window of a segment; and so for a one-sided transfer and the
parts of its plan. -/
theorem solid_vectors_iff (rx : RxEntry) (hdr : Hdr) (segs : List Seg) (iov : List Iovec)
    (htotal : ofiTotalIovLen iov ≤ rdsMaxMsgSize) :
    ((∀ (env : Env) (ep : Ep) (peer : SockAddr) (src : UInt64),
        ep.MakesSolid (rdsStartRndzvRead env ep rx hdr segs peer src))
      ↔ ∀ w ∈ rndzvWindows (min hdr.size.toNat rx.totalLen) 0 segs,
        ¬ emptyInside rx.iov w.1 w.2)
      ∧ ((∀ (env : Env) (ep : Ep) (remoteFi remoteOff key : UInt64) (isWrite : Bool) (context : ℕ)
            (flags : UInt64), ep.MakesSolid
              (rdsRmaCommon env ep iov remoteFi remoteOff key isWrite context flags).1)
        ↔ ∀ c ∈ rmaPlan iov (ofiTotalIovLen iov) 0,
          ¬ emptyInside iov c.off (min (ofiTotalIovLen iov - c.off) rdsKernelSegMax)) := by
  refine ⟨⟨fun h w hw => ?_, fun h env ep peer src => ?_⟩,
    ⟨fun h c hc => ?_, fun h env ep remoteFi remoteOff key isWrite context flags => ?_⟩⟩
  · -- if nothing is refused, the read of this window is issued
    have hmakes := Ep.Makes.startRndzvRead (Env.calm fun _ _ => .ok 1) idleEp rx hdr segs 20 1
    rw [if_pos (by decide), map_liov_rndzvReads] at hmakes
    rw [← rdsIovSlice_solid_iff]
    exact hmakes.solid_of_makesSolid (fun _ _ => rfl) (h _ _ _ _) (List.mem_map_of_mem hw)
      (length_rdsIovSlice rx.iov w.1 w.2)
  · refine (Ep.Makes.startRndzvRead env ep rx hdr segs peer src).makesSolid (fun l hl => ?_)
    split at hl
    · rw [map_liov_rndzvReads] at hl
      obtain ⟨w, hw, rfl⟩ := List.mem_map.mp hl
      exact (rdsIovSlice_solid_iff _ _ _).mpr (h w hw)
    · cases hl
  · have hmakes := Ep.Makes.rmaCommon (Env.calm fun _ _ => .ok 1) idleEp htotal 1 0 7 true 5 0
    rw [if_pos (by decide)] at hmakes
    rw [← rdsIovSlice_solid_iff, ← liov_of_mem_rmaPlan hc]
    refine hmakes.solid_of_makesSolid (fun _ _ => rfl) (h _ _ _ _ _ _ _ _)
      (List.mem_map_of_mem hc) ?_
    rw [liov_of_mem_rmaPlan hc]
    exact length_rdsIovSlice iov c.off _
  · refine (Ep.Makes.rmaCommon env ep htotal remoteFi remoteOff key isWrite context
      flags).makesSolid (fun l hl => ?_)
    split at hl
    · obtain ⟨c, hc, rfl⟩ := List.mem_map.mp hl
      rw [liov_of_mem_rmaPlan hc]
      exact (rdsIovSlice_solid_iff _ _ _).mpr (h c hc)
    · cases hl

/-- A receive into two pieces. -/
def piecedReceive : RxEntry where
  context := 9
  iov := [⟨4096, 3⟩, ⟨8192, 5⟩]
  totalLen := 8
  tag := 0
  ignore := 0
  addr := fiAddrUnspec
  flags := 0
  no := 0

/-- A read into two pieces that are not empty, and a write from them. -/
theorem two_pieces_are_solid :
    idleEp.MakesSolid (rdsStartRndzvRead (Env.calm fun _ _ => .ok 1) idleEp piecedReceive
        (rtsHdr false 0 1 0 0 8 3) [⟨77, 0, 8⟩] 20 1)
      ∧ idleEp.MakesSolid (rdsRmaCommon (Env.calm fun _ _ => .ok 1) idleEp piecedReceive.iov 1 0 7
        true 5 0).1 := by
  have hsolid (off len : ℕ) : ¬ emptyInside piecedReceive.iov off len := by
    rintro ⟨l, v, r, heq, hv, -⟩
    have hmem : v ∈ piecedReceive.iov := by
      rw [heq]
      simp
    simp only [piecedReceive, List.mem_cons, List.not_mem_nil, or_false] at hmem
    obtain rfl | rfl := hmem
    · cases hv
    · cases hv
  obtain ⟨hread, hwrite⟩ := solid_vectors_iff piecedReceive (rtsHdr false 0 1 0 0 8 3) [⟨77, 0, 8⟩]
    piecedReceive.iov (by decide)
  exact ⟨hread.mpr (fun w _ => hsolid _ _) _ _ _ _,
    hwrite.mpr (fun c _ => hsolid _ _) _ _ _ _ _ _ _ _⟩

/-- A receive into two pieces with an empty one between them. -/
def gappedReceive : RxEntry where
  context := 9
  iov := [⟨4096, 4⟩, ⟨8192, 0⟩, ⟨12288, 4⟩]
  totalLen := 8
  tag := 0
  ignore := 0
  addr := fiAddrUnspec
  flags := 0
  no := 0

/-- **An empty entry between two others reaches the kernel**, in the read of a rendezvous
receive and in a write. -/
theorem empty_entry_reaches_the_kernel :
    let env := Env.calm fun _ _ => .ok 1
    let hdr := rtsHdr false 0 1 0 0 8 3
    let read := rdsStartRndzvRead env idleEp gappedReceive hdr [⟨77, 0, 8⟩] 20 1
    let write := (rdsRmaCommon env idleEp gappedReceive.iov 1 0 7 true 5 0).1
    read.inflight.map RdmaOp.vec? = [some [⟨4096, 4⟩, ⟨8192, 0⟩, ⟨12288, 4⟩]]
      ∧ write.inflight.map RdmaOp.vec? = [some [⟨4096, 4⟩, ⟨8192, 0⟩, ⟨12288, 4⟩]]
      ∧ ¬ idleEp.MakesSolid read ∧ ¬ idleEp.MakesSolid write := by
  intro env hdr read write
  have hread : read.inflight.map RdmaOp.vec? = [some [⟨4096, 4⟩, ⟨8192, 0⟩, ⟨12288, 4⟩]] := by
    decide +kernel
  have hwrite : write.inflight.map RdmaOp.vec? = [some [⟨4096, 4⟩, ⟨8192, 0⟩, ⟨12288, 4⟩]] := by
    decide +kernel
  have hbad {ep : Ep}
      (hep : ep.inflight.map RdmaOp.vec? = [some [⟨4096, 4⟩, ⟨8192, 0⟩, ⟨12288, 4⟩]]) :
      ¬ idleEp.MakesSolid ep := by
    intro hsolid
    obtain ⟨op, hop, hvec⟩ :
        ∃ op ∈ ep.inflight, op.vec? = some [⟨4096, 4⟩, ⟨8192, 0⟩, ⟨12288, 4⟩] :=
      List.mem_map.mp (by rw [hep]; exact List.mem_singleton_self _)
    exact (hsolid.1 op hop _ hvec).solid ⟨8192, 0⟩ (by simp) rfl
  exact ⟨hread, hwrite, hbad hread, hbad hwrite⟩
