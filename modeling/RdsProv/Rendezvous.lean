import RdsProv.Finalized
import RdsProv.Transfer
import RdsProv.Credit

/-!
# What a rendezvous moves

A rendezvous cuts the source twice. The sender registers it in chunks of at most a megabyte,
none of which spans two entries of its scatter list; the receiver reads chunk after chunk, each
into the window of its own scatter list that is next. The two lists have nothing to do with
each other, and neither do their boundaries.

In terms of bytes none of this shows. The chunks, one after the other, are the gathered source
(`flatMap_chunksOf`), and the reads, one after the other, pair the addresses of the receive
buffer with its bytes (`cells_rndzvReads`), exactly as one copy would have done
(`cellsOf_ofiCopyToIov`).

The rest of the file follows a rendezvous whose reads are all accepted: the receive is pending
until its last notification (`Ep.notices_rndzvRx`), then it reports and its `FIN` is under way,
and the `FIN` completes the send (`rdsRecvDgram_fin`).
-/

/-! ## Chunks -/

/-- The bytes of a region. -/
def Region.bytes (mem : ℕ → UInt8) (r : Region) : List UInt8 := readMem mem r.base r.len

@[simp] theorem Region.length_bytes (mem : ℕ → UInt8) (r : Region) :
    (r.bytes mem).length = r.len := length_readMem mem r.base r.len

theorem readMem_append (mem : ℕ → UInt8) (a m n : ℕ) :
    readMem mem a m ++ readMem mem (a + m) n = readMem mem a (m + n) := by
  rw [readMem, readMem, readMem, ← List.map_append, List.range'_append_1]

theorem take_readMem (mem : ℕ → UInt8) (a : ℕ) {m n : ℕ} (h : m ≤ n) :
    (readMem mem a n).take m = readMem mem a m := by
  obtain ⟨k, rfl⟩ := Nat.exists_eq_add_of_le h
  rw [← readMem_append, List.take_left' (length_readMem mem a m)]

theorem flatMap_chunksFrom (mem : ℕ → UInt8) (base left : ℕ) :
    (chunksFrom base left).flatMap (Region.bytes mem) = readMem mem base left := by
  induction left using Nat.strong_induction_on generalizing base with
  | _ left ih =>
    rcases Nat.eq_zero_or_pos left with rfl | hpos
    · rw [chunksFrom_zero]
      rfl
    · have hmax : 0 < rdsKernelSegMax := by decide
      rw [chunksFrom_of_pos base hpos, List.flatMap_cons, ih _ (by omega)]
      show readMem mem base (min left rdsKernelSegMax) ++ _ = _
      rw [readMem_append, Nat.add_sub_cancel' (Nat.min_le_left _ _)]

/-- **The chunks are the source**, cut but in order. -/
theorem flatMap_chunksOf (mem : ℕ → UInt8) (iov : List Iovec) :
    (chunksOf iov).flatMap (Region.bytes mem) = gather mem iov := by
  rw [chunksOf, List.flatMap_assoc]
  simp only [flatMap_chunksFrom]
  rfl

/-- No chunk is empty. -/
theorem len_pos_of_mem_chunksFrom {base left : ℕ} {r : Region} (h : r ∈ chunksFrom base left) :
    0 < r.len := by
  induction left using Nat.strong_induction_on generalizing base with
  | _ left ih =>
    rcases Nat.eq_zero_or_pos left with rfl | hpos
    · rw [chunksFrom_zero] at h
      cases h
    · have hmax : 0 < rdsKernelSegMax := by decide
      rw [chunksFrom_of_pos base hpos] at h
      rcases List.mem_cons.mp h with rfl | h
      · show 0 < min left rdsKernelSegMax
        omega
      · exact ih _ (by omega) h

theorem len_pos_of_mem_chunksOf {iov : List Iovec} {r : Region} (h : r ∈ chunksOf iov) :
    0 < r.len := by
  obtain ⟨v, -, hr⟩ := List.mem_flatMap.mp h
  exact len_pos_of_mem_chunksFrom hr

/-! ## Segments -/

/-- A segment has the shape of a chunk: it starts at offset zero and is as long. -/
def Seg.Shapes (s : Seg) (r : Region) : Prop := s.off = 0 ∧ s.len = UInt64.ofNat r.len

/-- The registration loop describes the chunks one by one. -/
theorem rdsRegChunks_shapes (env : Env) (sock : ℕ) (cached : Bool) (rs : List Region)
    (dom : Domain) (h : (rdsRegChunks env sock cached rs dom).2.2.2 = none) :
    List.Forall₂ Seg.Shapes (rdsRegChunks env sock cached rs dom).2.1 rs := by
  induction rs generalizing dom with
  | nil => exact .nil
  | cons r rs ih =>
    rw [rdsRegChunks] at h ⊢
    split at h
    · cases h
    · exact .cons ⟨rfl, rfl⟩ (ih _ h)

/-- **A segment stands for a chunk**, under an assignment of addresses to cookies: its cookie
starts at the chunk. -/
structure Seg.StandsFor (base : UInt64 → ℕ) (s : Seg) (r : Region) : Prop where
  cookie : base s.cookie = r.base
  off : s.off = 0
  len : s.len.toNat = r.len
  pos : 0 < r.len

/-- Segments with the shapes of chunks stand for them if their cookies start there. -/
theorem standsFor_of_shapes {base : UInt64 → ℕ} {iov : List Iovec} {segs : List Seg}
    (hshapes : List.Forall₂ Seg.Shapes segs (chunksOf iov))
    (hbase : ∀ (k : ℕ) s r, segs[k]? = some s → (chunksOf iov)[k]? = some r →
      base s.cookie = r.base) :
    List.Forall₂ (Seg.StandsFor base) segs (chunksOf iov) := by
  rw [List.forall₂_iff_get] at hshapes ⊢
  refine ⟨hshapes.1, fun k hk hk' => ?_⟩
  obtain ⟨hoff, hlen⟩ := hshapes.2 k hk hk'
  have hmem : (chunksOf iov).get ⟨k, hk'⟩ ∈ chunksOf iov := List.get_mem _ _
  refine ⟨hbase k _ _ (List.getElem?_eq_getElem hk) (List.getElem?_eq_getElem hk'), hoff, ?_,
    len_pos_of_mem_chunksOf hmem⟩
  rw [hlen]
  exact toNat_ofNat_len (len_le_of_mem_chunksOf hmem)

/-! ## Reads -/

/-- **The bytes an RDMA read stores**, one address at a time: those of the remote memory from
where its cookie starts, at the addresses of its local vector. -/
def RdmaOp.cells (mem : ℕ → UInt8) (base : UInt64 → ℕ) (op : RdmaOp) : List (ℕ × UInt8) :=
  match op.loc with
  | .iov l => (iovAddrs l).zip
      (readMem mem (base op.cookie + op.remoteOff.toNat) (ofiTotalIovLen l))
  | _ => []

/-- Pairing with two runs of bytes is pairing with the one and then with the other. -/
theorem zip_append_right {α β : Type} (l : List α) (r₁ r₂ : List β) :
    l.zip (r₁ ++ r₂) = l.zip r₁ ++ (l.drop r₁.length).zip r₂ := by
  induction r₁ generalizing l with
  | nil => simp
  | cons b r₁ ih =>
    cases l with
    | nil => simp
    | cons a l => simp [ih]

/-- A window of a receive buffer that has the bytes asked for. -/
theorem slice_within {iov : List Iovec} (hroom : iov.length ≤ rdsIovLimit) {off len : ℕ}
    (h : off + len ≤ ofiTotalIovLen iov) :
    iovAddrs (rdsIovSlice iov off len).1 = ((iovAddrs iov).drop off).take len
      ∧ ofiTotalIovLen (rdsIovSlice iov off len).1 = len := by
  have hsnd : (rdsIovSlice iov off len).2 = len := by
    rw [rdsIovSlice_snd iov off len hroom]
    omega
  rw [iovAddrs_rdsIovSlice, ofiTotalIovLen_rdsIovSlice, hsnd]
  exact ⟨rfl, rfl⟩

/-- **The reads of a rendezvous store the source in the receive buffer**, from `off` on and up to
the effective length. -/
theorem cells_rndzvReads {iov : List Iovec} (hroom : iov.length ≤ rdsIovLimit)
    {base : UInt64 → ℕ} {segs : List Seg} {rs : List Region}
    (hsegs : List.Forall₂ (Seg.StandsFor base) segs rs) {effective : ℕ}
    (heff : effective ≤ ofiTotalIovLen iov) (off : ℕ) (mem : ℕ → UInt8) (peer : SockAddr)
    (token rts : UInt64) :
    (rndzvReads iov effective off segs).flatMap (fun r => (r.op peer token rts).cells mem base)
      = (((iovAddrs iov).take effective).drop off).zip (rs.flatMap (Region.bytes mem)) := by
  induction hsegs generalizing off with
  | nil =>
    rw [rndzvReads, List.flatMap_nil, List.flatMap_nil, List.zip_nil_right]
  | @cons s r segs rs hs _ ih =>
    rw [rndzvReads]
    split
    · rename_i hlt
      have hwithin : off + min s.len.toNat (effective - off) ≤ ofiTotalIovLen iov := by omega
      obtain ⟨haddrs, hlen⟩ := slice_within hroom hwithin
      rw [List.flatMap_cons, List.flatMap_cons, ih, zip_append_right, Region.length_bytes,
        List.drop_drop, hs.len]
      rw [hs.len] at haddrs hlen
      congr 1
      · -- the window and the chunk are both cut to the shorter of the two
        show (iovAddrs (rdsIovSlice iov off (min r.len (effective - off))).1).zip
          (readMem mem (base s.cookie + s.off.toNat)
            (ofiTotalIovLen (rdsIovSlice iov off (min r.len (effective - off))).1)) = _
        have hmin : min (((iovAddrs iov).take effective).drop off).length (r.bytes mem).length
            = min r.len (effective - off) := by
          rw [Region.length_bytes, List.length_drop, List.length_take, length_iovAddrs]
          omega
        have hbytes : (r.bytes mem).take (min r.len (effective - off))
            = readMem mem r.base (min r.len (effective - off)) :=
          take_readMem mem r.base (Nat.min_le_left _ _)
        have hcut : (((iovAddrs iov).take effective).drop off).zip (r.bytes mem)
            = ((((iovAddrs iov).take effective).drop off).take (min r.len (effective - off))).zip
              ((r.bytes mem).take (min r.len (effective - off))) := by
          rw [List.zip_eq_zip_take_min, hmin]
        rw [hcut, hbytes, List.drop_take, List.take_take,
          Nat.min_eq_left (Nat.min_le_right _ _), haddrs, hlen, hs.cookie, hs.off]
        rfl
      · by_cases hle : r.len ≤ effective - off
        · rw [Nat.min_eq_left hle]
        · rw [List.drop_eq_nil_of_le, List.drop_eq_nil_of_le]
          · rw [List.length_take]
            omega
          · rw [List.length_take]
            omega
    · rw [List.flatMap_nil, List.drop_eq_nil_of_le, List.zip_nil_left]
      rw [List.length_take]
      omega

/-- **Read by rendezvous or copied, the receive buffer gets the same bytes.** -/
theorem cells_rendezvous {iov src : List Iovec} (hroom : iov.length ≤ rdsIovLimit)
    {base : UInt64 → ℕ} {segs : List Seg}
    (hsegs : List.Forall₂ (Seg.StandsFor base) segs (chunksOf src)) (mem : ℕ → UInt8)
    (peer : SockAddr) (token rts : UInt64) :
    (rndzvReads iov (min (ofiTotalIovLen src) (ofiTotalIovLen iov)) 0 segs).flatMap
        (fun r => (r.op peer token rts).cells mem base)
      = (iovAddrs iov).zip (gather mem src) := by
  rw [cells_rndzvReads hroom hsegs (Nat.min_le_right _ _), List.drop_zero, flatMap_chunksOf]
  rcases Nat.le_total (ofiTotalIovLen iov) (ofiTotalIovLen src) with hle | hle
  · rw [Nat.min_eq_right hle, List.take_of_length_le (length_iovAddrs iov).le]
  · have hmin : min (iovAddrs iov).length (gather mem src).length = ofiTotalIovLen src := by
      rw [length_iovAddrs, length_gather, Nat.min_eq_right hle]
    have hcut : (iovAddrs iov).zip (gather mem src)
        = ((iovAddrs iov).take (ofiTotalIovLen src)).zip
          ((gather mem src).take (ofiTotalIovLen src)) := by
      rw [List.zip_eq_zip_take_min, hmin]
    rw [Nat.min_eq_left hle, hcut, List.take_of_length_le (length_gather mem src).le]

/-- No read is empty, and none has too many entries. -/
theorem cnt_of_mem_rndzvReads {iov : List Iovec} {base : UInt64 → ℕ} {segs : List Seg}
    {rs : List Region} (hsegs : List.Forall₂ (Seg.StandsFor base) segs rs) {effective : ℕ}
    (heff : effective ≤ ofiTotalIovLen iov) (off : ℕ) :
    ∀ r ∈ rndzvReads iov effective off segs, r.liov ≠ [] ∧ r.liov.length ≤ rdsIovLimit := by
  induction hsegs generalizing off with
  | nil => simp [rndzvReads]
  | @cons s r segs rs hs _ ih =>
    rw [rndzvReads]
    split
    · rename_i hlt
      intro x hx
      rcases List.mem_cons.mp hx with rfl | hx
      · refine ⟨fun hnil => ?_, length_rdsIovSlice _ _ _⟩
        have hsum := ofiTotalIovLen_rdsIovSlice iov off (min s.len.toNat (effective - off))
        have hpos : 0 < (rdsIovSlice iov off (min s.len.toNat (effective - off))).2 := by
          refine rdsIovSlice_pos iov ?_ (by omega)
          have := hs.pos
          rw [hs.len]
          omega
        rw [show (rdsIovSlice iov off (min s.len.toNat (effective - off))).1 = [] from hnil] at hsum
        exact hpos.ne hsum
      · exact ih _ x hx
    · simp

/-! ## A receive whose reads are accepted -/

/-- Reads that the socket accepts are in flight, and counted. -/
theorem foldl_rdsIssueRead {env : Env} (henv : env.RdmaOk) (peer : SockAddr) (rts : UInt64)
    (rs : List ReadReq) (hrs : ∀ r ∈ rs, r.liov ≠ [] ∧ r.liov.length ≤ rdsIovLimit) (ep : Ep)
    (p : Pending) :
    rs.foldl (rdsIssueRead env peer rts) (ep, p)
      = ({ ep with
            tick := ep.tick + rs.length
            inflight := ep.inflight ++ rs.map (fun r => r.op peer p.id rts) },
          { p with
            segRemaining := p.segRemaining + UInt32.ofNat rs.length
            segTotal := p.segTotal + UInt32.ofNat rs.length }) := by
  induction rs generalizing ep p with
  | nil => simp
  | cons r rs ih =>
    obtain ⟨hne, hle⟩ := hrs r List.mem_cons_self
    have hstep : rdsIssueRead env peer rts (ep, p) r
        = ({ ep with
              tick := ep.tick + 1, inflight := ep.inflight ++ [r.op peer p.id rts] },
            { p with segRemaining := p.segRemaining + 1, segTotal := p.segTotal + 1 }) := by
      have hcnt : ¬ ((r.op peer p.id rts).loc.cnt = 0
          ∨ rdsIovLimit < (r.op peer p.id rts).loc.cnt) := by
        show ¬ (r.liov.length = 0 ∨ rdsIovLimit < r.liov.length)
        rw [List.length_eq_zero_iff]
        exact not_or.mpr ⟨hne, not_lt.mpr hle⟩
      unfold rdsIssueRead
      dsimp only
      obtain ⟨h, -⟩ | ⟨e, -, h, -⟩ | ⟨-, -, h⟩ | ⟨-, h, -⟩ :=
        rdsPostRdma_cases env ep (r.op peer p.id rts)
      · exact absurd h hcnt
      · rw [henv] at h
        cases h
      · rw [h]
      · cases h
    have hcount (n : UInt32) :
        n + 1 + UInt32.ofNat rs.length = n + UInt32.ofNat (rs.length + 1) := by
      rw [UInt32.ofNat_add, UInt32.add_assoc, UInt32.add_comm 1]
      rfl
    rw [List.foldl_cons, hstep, ih (fun x hx => hrs x (List.mem_cons_of_mem _ hx))]
    dsimp only
    rw [hcount, hcount, List.append_assoc, List.length_cons, Nat.add_assoc, Nat.add_comm 1]
    rfl

/-- The pending operation of a receive that awaits a number of notifications. -/
def rxPending (ep : Ep) (rx : RxEntry) (hdr : Hdr) (peer : SockAddr) (src : UInt64) (n : ℕ) :
    Pending :=
  { (Pending.blank (succId ep.opId) .rndzvRx rx.context (rdsRxFlags hdr)).ofRequest rx hdr peer
      src ep.cfg.rxOpFlags with
    segRemaining := UInt32.ofNat n
    segTotal := UInt32.ofNat n }

/-- **A rendezvous receive whose reads are accepted** is finalized at once if there are none, and
otherwise pending until they are notified. -/
theorem rdsStartRndzvRead_accepted {env : Env} (henv : env.RdmaOk) (halloc : env.AllocOk) (ep : Ep)
    (rx : RxEntry) (hdr : Hdr) (segs : List Seg) (peer : SockAddr) (src : UInt64)
    {rs : List ReadReq} (hrs : rndzvReads rx.iov (min hdr.size.toNat rx.totalLen) 0 segs = rs)
    (hvec : ∀ r ∈ rs, r.liov ≠ [] ∧ r.liov.length ≤ rdsIovLimit) (hlen : rs.length < 2 ^ 32) :
    ∃ t, let e : Ep := { ep.issued t (rs.map (fun r => r.op peer (succId ep.opId) hdr.id)) with
          trace := ep.trace ++ [.rxOpen (succId ep.opId) (rx.totalLen < hdr.size.toNat)] }
      rdsStartRndzvRead env ep rx hdr segs peer src
        = if rs = [] then rdsRndzvRxFinalize env e (rxPending ep rx hdr peer src 0)
          else e.linkPending (rxPending ep rx hdr peer src rs.length) := by
  refine ⟨ep.tick + 1 + rs.length, ?_⟩
  refine rdsStartRndzvRead_elim (fun hnone => ?_) (fun _ e q hreads => ?_)
  · rw [halloc] at hnone
    cases hnone
  rw [hrs, foldl_rdsIssueRead henv peer hdr.id rs hvec] at hreads
  obtain ⟨rfl, rfl⟩ := Prod.mk.inj hreads
  dsimp only
  have hzero : (0 : UInt32) + UInt32.ofNat rs.length = UInt32.ofNat rs.length := UInt32.zero_add _
  have hiff : ((0 : UInt32) + UInt32.ofNat rs.length = 0 ∧ (0 : UInt32) = 0) ↔ rs = [] := by
    rw [hzero, ← UInt32.toNat_inj, UInt32.toNat_ofNat', Nat.mod_eq_of_lt hlen]
    simp
  by_cases hnil : rs = []
  · rw [if_pos hnil]
    refine (if_pos (hiff.mpr hnil)).trans ?_
    rw [hnil]
    rfl
  · rw [if_neg hnil]
    refine (if_neg (fun h => hnil (hiff.mp h))).trans ?_
    refine congrArg (Ep.linkPending _) ?_
    unfold rxPending
    congr 1

/-! ## Notifications and the `FIN` -/

/-- **A receive is over**: it has reported, and its `FIN` is under way, on the wire or parked. -/
structure Ep.RxOver (ep : Ep) (p : Pending) (ep' : Ep) : Prop where
  cfg : ep'.cfg = ep.cfg
  placed : ep'.placed = ep.placed
  rxCq : ep'.rxCq = ep.rxCq ++ p.entries ep.cfg
  fin : (ep'.wire = ep.wire ++ [finDgram ep.cfg.self p.peer p.peerId]
      ∧ ep'.deferred = ep.deferred)
    ∨ (ep'.wire = ep.wire ∧ ep'.deferred = ep.deferred ++ [.fin p.peer p.peerId])

/-- With memory and no hard error, a `FIN` is sent or parked. -/
theorem finFate_ne_lost {env : Env} (halloc : env.AllocOk) (hsock : env.NoHardError) (ep : Ep)
    (peer : SockAddr) (id : UInt64) : finFate env ep peer id ≠ .lost := by
  unfold finFate rdsSendFinRaw
  obtain ⟨-, h⟩ | ⟨e, e', he, hret, h⟩ := ep.sendDgram_cases env peer (finHdr id).encode
  · rw [h]
    exact nofun
  · rw [h]
    have he' : e' = fiEagain := by
      unfold sockRet at hret
      rw [if_pos (hsock _ _ _ he)] at hret
      cases hret
      rfl
    dsimp only
    rw [if_pos ⟨he', halloc _⟩]
    decide

/-- Finalizing a receive ends it. -/
theorem rdsRndzvRxFinalize_over {env : Env} (halloc : env.AllocOk) (hsock : env.NoHardError)
    (ep : Ep) (p : Pending) : ep.RxOver p (rdsRndzvRxFinalize env ep p) := by
  obtain ⟨t, l, heq, -⟩ := rdsRndzvRxFinalize_fate env ep p
  rw [heq]
  refine ⟨rfl, rfl, rfl, ?_⟩
  have hlost := finFate_ne_lost halloc hsock ep p.peer p.peerId
  dsimp only
  cases hfate : finFate env ep p.peer p.peerId with
  | sent => exact .inl ⟨rfl, List.append_nil _⟩
  | parked => exact .inr ⟨List.append_nil _, rfl⟩
  | lost => exact absurd hfate hlost

/-- **A receive counts its notifications**, and is finalized by the last. -/
theorem Ep.notice_rndzvRx {ep : Ep} {p : Pending} (hfind : rdsPendingFind ep p.id = some p)
    (htype : p.type = .rndzvRx) (hrem : p.segRemaining ≠ 0) (hparked : p.segDeferred = 0)
    {n : Notice} (htoken : n.op.token = p.id) (hstatus : n.status = 0) :
    let q : Pending := { p with segRemaining := p.segRemaining - 1 }
    let e : Ep := { ep with
      inflight := ep.inflight.erase n.op, trace := ep.trace ++ [.readAck p.id true] }
    ep.notice n = if p.segRemaining - 1 = 0 then (rdsRndzvRxFinalize n.env e q).unlinkPending p.id
      else e.storePending q := by
  intro q e
  have hfind' : rdsPendingFind { ep with inflight := ep.inflight.erase n.op } p.id = some p := hfind
  show rdsHandleRdmaNotify n.env { ep with inflight := ep.inflight.erase n.op } n.op.token n.status
    = _
  rw [htoken, hstatus, rdsHandleRdmaNotify_found n.env hfind', Pending.acks, if_pos htype]
  dsimp only
  rw [if_neg hrem]
  by_cases hlast : p.segRemaining - 1 = 0
  · rw [if_neg (not_not_intro hlast), if_pos hlast, htype]
    dsimp only
    rw [if_pos hparked, ← htype]
    rfl
  · rw [if_pos hlast, if_neg hlast]
    rfl

/-- **The notifications of a receive end it**, in whatever order they come, if they are all of
success. -/
theorem Ep.notices_rndzvRx (ns : List Notice) {ep : Ep} {p : Pending}
    (hfind : rdsPendingFind ep p.id = some p) (htype : p.type = .rndzvRx)
    (hparked : p.segDeferred = 0) (hlen : p.segRemaining.toNat = ns.length) (hne : ns ≠ [])
    (htoken : ∀ n ∈ ns, n.op.token = p.id) (hstatus : ∀ n ∈ ns, n.status = 0)
    (halloc : ∀ n ∈ ns, n.env.AllocOk) (hsock : ∀ n ∈ ns, n.env.NoHardError) :
    ep.RxOver p (ns.foldl Ep.notice ep) := by
  induction ns generalizing ep p with
  | nil => exact absurd rfl hne
  | cons n ns ih =>
    rw [List.length_cons] at hlen
    have hrem : p.segRemaining ≠ 0 := by
      rintro hzero
      rw [hzero] at hlen
      simp at hlen
    have hstep := notice_rndzvRx hfind htype hrem hparked (htoken n List.mem_cons_self)
      (hstatus n List.mem_cons_self)
    have hminus : (p.segRemaining - 1).toNat = ns.length := by
      rw [UInt32.toNat_sub_of_le]
      · rw [hlen]
        rfl
      · rw [UInt32.le_iff_toNat_le, hlen]
        exact Nat.le_add_left 1 _
    dsimp only at hstep
    rw [List.foldl_cons, hstep]
    set q : Pending := { p with segRemaining := p.segRemaining - 1 } with hq
    set e : Ep := { ep with
      inflight := ep.inflight.erase n.op, trace := ep.trace ++ [.readAck p.id true] } with he
    by_cases hnil : ns = []
    · -- the last notification
      have hlast : p.segRemaining - 1 = 0 := by
        rw [← UInt32.toNat_inj, hminus, hnil]
        rfl
      subst hnil
      rw [if_pos hlast, List.foldl_nil]
      obtain ⟨hcfg, hplaced, hrxCq, hfin⟩ := rdsRndzvRxFinalize_over
        (halloc n List.mem_cons_self) (hsock n List.mem_cons_self) e q
      exact ⟨hcfg, hplaced, hrxCq, hfin⟩
    · have hmore : p.segRemaining - 1 ≠ 0 := by
        intro hzero
        rw [hzero] at hminus
        exact hnil (List.length_eq_zero_iff.mp hminus.symm)
      rw [if_neg hmore]
      have hfind' : rdsPendingFind (e.storePending q) q.id = some q := by
        have hmod := List.find?_modifyFirst (p := fun x : Pending => x.id == q.id)
          (f := fun _ => q) (fun _ _ => by simp) ep.pending
        have hp : ep.pending.find? (fun x => x.id == q.id) = some p := hfind
        rw [hp] at hmod
        exact hmod
      obtain ⟨hcfg, hplaced, hrxCq, hfin⟩ := ih hfind' htype hparked hminus hnil
        (fun m hm => htoken m (List.mem_cons_of_mem _ hm))
        (fun m hm => hstatus m (List.mem_cons_of_mem _ hm))
        (fun m hm => halloc m (List.mem_cons_of_mem _ hm))
        (fun m hm => hsock m (List.mem_cons_of_mem _ hm))
      exact ⟨hcfg, hplaced, hrxCq, hfin⟩

/-- **A `FIN` completes its send.** -/
theorem rdsRecvDgram_fin (env : Env) {ep : Ep} {p : Pending}
    (hfind : rdsPendingFind ep p.id = some p) (htype : p.type = .rndzvTx) (src : SockAddr) :
    rdsRecvDgram env ep src (finHdr p.id).encode = rdsPendingComplete ep p := by
  have hhdr : Hdr.decode (finHdr p.id).encode = finHdr p.id := by
    have h := Hdr.decode_encode (finHdr p.id) []
    rwa [List.append_nil] at h
  unfold rdsRecvDgram rdsHandleInbound
  rw [hhdr, Hdr.encode_length, if_neg (lt_irrefl _),
    if_neg (show ¬ (finHdr p.id).magic ≠ rdsHdrMagic from not_not_intro rfl),
    if_pos (show (finHdr p.id).op = rdsOpFin from rfl)]
  have hfind' : rdsPendingFind ep (finHdr p.id).id = some p := hfind
  rw [hfind']
  exact if_pos htype
